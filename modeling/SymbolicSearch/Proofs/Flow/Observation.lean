/-
Seeing a call happen, as a whole. It asks for the callee, finds the blocks
of three statements, and only then draws relations. So it draws all that it
has to or nothing; and a call that was seen can be seen again at any later
time without effect (`observe_exact`).

# All or nothing

Whatever comes of it, the graph afterwards is the one that asking for the
callee leaves, with relations of the call drawn on it or not
(`observe_cases`). Which of them are new is said once, for any relations
drawn on any graph (`linkAll_draws`).

# Once is enough

Later on the graph has grown, and the statements are looked up in it anew.
They are found where they were (`Placed.later`), so the relations to be
drawn are the ones that were drawn then, and none of them has been lost.
-/
import SymbolicSearch.Proofs.Flow.Calls

namespace SymbolicSearch.FlowGraph

variable {g g' : FlowGraph} {load : Loader} {site back entry : Stmt}

-- ============================================================ what is drawn

/-- One graph is another with relations drawn on it: those asked for that it
had not, each once, behind the ones it had. All else is the same. -/
def Draws (wanted : Edge → Prop) (g g' : FlowGraph) : Prop :=
  ∃ new : List Edge, g' = { g with edges := g.edges ++ new } ∧ new.Nodup ∧
    ∀ e, e ∈ new ↔ wanted e ∧ e ∉ g.edges

theorem draws_link (g : FlowGraph) (e : Edge) : Draws (· = e) g (g.link e) := by
  unfold link
  split
  next hold =>
    refine ⟨[], by rw [List.append_nil], List.nodup_nil, fun x => ?_⟩
    refine iff_of_false List.not_mem_nil ?_
    rintro ⟨rfl, hnew⟩
    exact hnew hold
  next hnew =>
    refine ⟨[e], rfl, List.nodup_singleton e, fun x => ?_⟩
    rw [List.mem_singleton]
    refine ⟨?_, And.left⟩
    rintro rfl
    exact ⟨rfl, hnew⟩

/-- To draw some relations and then others is to draw them all. -/
theorem Draws.trans {g'' : FlowGraph} {p q : Edge → Prop} (h : Draws p g g')
    (h' : Draws q g' g'') : Draws (fun e => p e ∨ q e) g g'' := by
  obtain ⟨new, rfl, hnodup, hmem⟩ := h
  obtain ⟨new', rfl, hnodup', hmem'⟩ := h'
  have hmem' : ∀ e, e ∈ new' ↔ q e ∧ e ∉ g.edges ∧ e ∉ new := by
    intro e
    rw [hmem', List.mem_append, not_or]
  refine ⟨new ++ new', by rw [List.append_assoc], ?_, fun e => ?_⟩
  · refine List.nodup_append.2 ⟨hnodup, hnodup', fun x hx y hy heq => ?_⟩
    exact ((hmem' y).1 hy).2.2 (heq ▸ hx)
  · rw [List.mem_append, hmem', hmem]
    tauto

theorem linkAll_draws (g : FlowGraph) (es : List Edge) : Draws (· ∈ es) g (g.linkAll es) := by
  induction es generalizing g with
  | nil => exact ⟨[], by rw [List.append_nil]; rfl, List.nodup_nil, fun e => by simp⟩
  | cons e rest ih =>
      have h : Draws _ g (g.linkAll (e :: rest)) := (draws_link g e).trans (ih (g.link e))
      simpa only [List.mem_cons] using h

/-- Where nothing is missing, nothing is drawn. -/
theorem linkAll_of_subset {es : List Edge} (h : ∀ e ∈ es, e ∈ g.edges) : g.linkAll es = g := by
  obtain ⟨new, heq, -, hmem⟩ := linkAll_draws g es
  have hnil : new = [] := List.eq_nil_iff_forall_not_mem.2 fun e he =>
    ((hmem e).1 he).2 (h e ((hmem e).1 he).1)
  rw [heq, hnil, List.append_nil]

-- ================================================================= one call

/-- The relation is that of the call from one statement to another, or that
of a return from the method of the second to where the call goes on. -/
def OfCall (g : FlowGraph) (site back entry : Stmt) (e : Edge) : Prop :=
  (e.relation = .call ∧ g.blockAt site = .ok e.source ∧ g.blockAt entry = .ok e.target) ∨
    (e.relation = .back ∧ e.source ∈ g.exitsOf entry.site.method ∧
      g.blockAt back = .ok e.target)

theorem not_placed_of_error {stmt : Stmt} {f : Fault} (hstmt : stmt ∈ [site, entry, back])
    (h : g.blockAt stmt = .error f) : ¬ g.Placed site back entry := by
  rintro ⟨s, x, b, hs, hx, hb⟩
  have hnone : ∀ {id}, g.blockAt stmt ≠ .ok id := fun hid => nomatch h.symm.trans hid
  simp only [List.mem_cons, List.not_mem_nil, or_false] at hstmt
  rcases hstmt with rfl | rfl | rfl
  · exact hnone hs
  · exact hnone hx
  · exact hnone hb

/-- Seeing a call happen comes to one of three things: the callee cannot be
had, one of the statements has no block, or the relations are drawn. -/
theorem observe_cases (g : FlowGraph) (load : Loader) (site back entry : Stmt) :
    (∃ f, g.discover load entry.site.method = .error f ∧
        g.observe load site back entry = (g, .error f)) ∨
      (∃ g₁ f, g.discover load entry.site.method = .ok g₁ ∧ ¬ g₁.Placed site back entry ∧
        g.observe load site back entry = (g₁, .error f)) ∨
      ∃ g₁, g.discover load entry.site.method = .ok g₁ ∧ g₁.Placed site back entry ∧
        g.observe load site back entry =
          (g₁.linkAll (g₁.callsBetween site back entry), .ok ()) := by
  unfold observe callsBetween
  cases hd : g.discover load entry.site.method with
  | error f => exact Or.inl ⟨f, rfl, rfl⟩
  | ok g₁ =>
      right
      -- the statements are looked up in this order, and the first failure ends it
      cases hs : g₁.blockAt site with
      | error f =>
          refine Or.inl ⟨g₁, f, rfl, not_placed_of_error (by simp) hs, ?_⟩
          simp only [hs]
          rfl
      | ok s =>
          cases hx : g₁.blockAt entry with
          | error f =>
              refine Or.inl ⟨g₁, f, rfl, not_placed_of_error (by simp) hx, ?_⟩
              simp only [hs, hx]
              rfl
          | ok x =>
              cases hb : g₁.blockAt back with
              | error f =>
                  refine Or.inl ⟨g₁, f, rfl, not_placed_of_error (by simp) hb, ?_⟩
                  simp only [hs, hx, hb]
                  rfl
              | ok b =>
                  refine Or.inr ⟨g₁, rfl, ⟨s, x, b, hs, hx, hb⟩, ?_⟩
                  simp only [hs, hx, hb]
                  rfl

theorem act_discover_of_ok {g₁ : FlowGraph} {m : MethodNo} (h : g.discover load m = .ok g₁) :
    g.act (.discover load m) = g₁ := by
  simp only [act, h]

theorem act_discover_of_error {f : Fault} {m : MethodNo} (h : g.discover load m = .error f) :
    g.act (.discover load m) = g := by
  simp only [act, h]

/-- A call that could not be followed leaves the graph that asking for the
callee alone leaves. -/
theorem observe_of_error {f : Fault} (h : (g.observe load site back entry).2 = .error f) :
    (g.observe load site back entry).1 = g.act (.discover load entry.site.method) := by
  obtain ⟨f', hf', heq⟩ | ⟨g₁, f', hg₁, -, heq⟩ | ⟨g₁, -, -, heq⟩ :=
    observe_cases g load site back entry
  · rw [heq, act_discover_of_error hf']
  · rw [heq, act_discover_of_ok hg₁]
  · rw [heq] at h
    cases h

/-- So it leaves the relations between methods as they were, although the
callee may have come in. -/
theorem crossings_of_error {f : Fault} (h : (g.observe load site back entry).2 = .error f)
    {e : Edge} (he : e.Crosses) :
    e ∈ (g.observe load site back entry).1.edges ↔ e ∈ g.edges := by
  rw [observe_of_error h]
  exact (mem_edges_act he _).trans (or_iff_right List.not_mem_nil)

/-- A call is followed just if the callee can be had and each of the three
statements has a block then. -/
theorem observe_eq_ok_iff : (g.observe load site back entry).2 = .ok () ↔
    ∃ g₁, g.discover load entry.site.method = .ok g₁ ∧ g₁.Placed site back entry := by
  obtain ⟨f, hf, heq⟩ | ⟨g₁, f, hg₁, hnot, heq⟩ | ⟨g₁, hg₁, hp, heq⟩ :=
    observe_cases g load site back entry
  · rw [heq]
    refine iff_of_false (fun h => nomatch h) ?_
    rintro ⟨g₁, hg₁, -⟩
    cases hf.symm.trans hg₁
  · rw [heq]
    refine iff_of_false (fun h => nomatch h) ?_
    rintro ⟨g₁', hg₁', hp⟩
    obtain rfl := Except.ok.inj (hg₁.symm.trans hg₁')
    exact hnot hp
  · rw [heq]
    exact iff_of_true rfl ⟨g₁, hg₁, hp⟩

/-- A call that is followed has drawn on that graph what it asks for. -/
theorem draws_of_ok (h : (g.observe load site back entry).2 = .ok ()) :
    Draws ((g.act (.discover load entry.site.method)).OfCall site back entry)
      (g.act (.discover load entry.site.method)) (g.observe load site back entry).1 := by
  obtain ⟨f, -, heq⟩ | ⟨g₁, f, -, -, heq⟩ | ⟨g₁, hg₁, hp, heq⟩ :=
    observe_cases g load site back entry
  · rw [heq] at h
    cases h
  · rw [heq] at h
    cases h
  · rw [act_discover_of_ok hg₁, heq]
    obtain ⟨new, hgraph, hnodup, hmem⟩ := linkAll_draws g₁ (g₁.callsBetween site back entry)
    exact ⟨new, hgraph, hnodup, fun e =>
      (hmem e).trans (and_congr_left fun _ => mem_callsBetween_of_placed hp)⟩

-- =============================================================== ever after

/-- Three statements that have blocks are related by a call in the same way
ever after. -/
theorem Placed.later {as : List Act} (hp : (chronicle as).graph.Placed site back entry)
    (bs : List Act) (hbs : ∀ a ∈ bs, a.IsHonest) :
    (chronicle (as ++ bs)).graph.Placed site back entry ∧
      (chronicle (as ++ bs)).graph.callsBetween site back entry =
        (chronicle as).graph.callsBetween site back entry := by
  induction bs using List.reverseRecOn with
  | nil =>
      rw [List.append_nil]
      exact ⟨hp, rfl⟩
  | append_singleton bs b ih =>
      rw [List.forall_mem_append] at hbs
      have hb : b.IsHonest := hbs.2 b (List.mem_singleton_self b)
      obtain ⟨hplaced, hsame⟩ := ih hbs.1
      rw [← List.append_assoc, chronicle_concat]
      exact ⟨hplaced.act (sound_chronicle _) hb,
        (hplaced.callsBetween_act (sound_chronicle _) hb).trans hsame⟩

/-- Where the relations of a call are all there, seeing it happen changes
nothing, and nobody is asked for the callee. -/
theorem observe_of_drawn (load : Loader) (hp : g.Placed site back entry)
    (hdrawn : ∀ e ∈ g.callsBetween site back entry, e ∈ g.edges) :
    g.observe load site back entry = (g, .ok ()) := by
  obtain ⟨s, x, b, -, hx, -⟩ := id hp
  have hd : g.discover load entry.site.method = .ok g := by
    rw [discover, if_pos (contains_of_blockAt hx)]
  obtain ⟨f, hf, -⟩ | ⟨g₁, f, hok, hnot, -⟩ | ⟨g₁, hok, -, heq⟩ :=
    observe_cases g load site back entry
  · cases hd.symm.trans hf
  · obtain rfl := Except.ok.inj (hd.symm.trans hok)
    exact absurd hp hnot
  · obtain rfl := Except.ok.inj (hd.symm.trans hok)
    rw [heq, linkAll_of_subset hdrawn]

/-- A call that was followed can be followed again at any later time, and
nothing comes of it. -/
theorem observe_again {as bs : List Act} (hbs : ∀ a ∈ bs, a.IsHonest)
    (hok : ((chronicle as).graph.observe load site back entry).2 = .ok ()) (load' : Loader) :
    (chronicle (as ++ [.observe load site back entry] ++ bs)).graph.observe load' site back entry =
      ((chronicle (as ++ [.observe load site back entry] ++ bs)).graph, .ok ()) := by
  obtain ⟨hplaced, hdrawn⟩ := drawn_of_seen hok
  have hgraph : (chronicle (as ++ [.observe load site back entry])).graph =
      (chronicle as).graph.act (.observe load site back entry) := by
    rw [chronicle_concat]
    rfl
  rw [← hgraph] at hplaced hdrawn
  obtain ⟨hlater, hsame⟩ := hplaced.later bs hbs
  refine observe_of_drawn load' hlater fun e he => mem_edges_later _ bs ?_
  rw [hsame, ← hdrawn] at he
  rw [hgraph, (act_spec _ _).edges, mem_edges_linkAll]
  exact Or.inl he

/-- Seeing a call happen is all or nothing, and once is enough. In every
graph that can arise, if it fails, the graph is the one that asking for the
callee alone leaves, which is the old one if that fails; no relation between
methods is new. It succeeds just if the callee can be had and each of the
three statements has a block then; on the graph that asking for the callee
leaves it draws the call and the returns from it, each of them once if it is
missing, and changes nothing else. Done again after anything that asks honest
loaders, it succeeds and changes nothing, whoever is asked. -/
theorem observe_exact (as bs : List Act) (load : Loader) (site back entry : Stmt)
    (hbs : ∀ a ∈ bs, a.IsHonest) :
    (∀ f, (chronicle as).graph.discover load entry.site.method = .error f →
        (chronicle as).graph.act (.discover load entry.site.method) = (chronicle as).graph) ∧
      (∀ f, ((chronicle as).graph.observe load site back entry).2 = .error f →
        ((chronicle as).graph.observe load site back entry).1 =
            (chronicle as).graph.act (.discover load entry.site.method) ∧
          ∀ e : Edge, e.Crosses →
            (e ∈ ((chronicle as).graph.observe load site back entry).1.edges ↔
              e ∈ (chronicle as).graph.edges)) ∧
      (((chronicle as).graph.observe load site back entry).2 = .ok () ↔
        ∃ g, (chronicle as).graph.discover load entry.site.method = .ok g ∧
          g.Placed site back entry) ∧
      (((chronicle as).graph.observe load site back entry).2 = .ok () →
        Draws (((chronicle as).graph.act (.discover load entry.site.method)).OfCall site back entry)
            ((chronicle as).graph.act (.discover load entry.site.method))
            ((chronicle as).graph.observe load site back entry).1 ∧
          ∀ load', (chronicle (as ++ [.observe load site back entry] ++ bs)).graph.observe load'
              site back entry =
            ((chronicle (as ++ [.observe load site back entry] ++ bs)).graph, .ok ())) :=
  ⟨fun _ hf => act_discover_of_error hf,
    fun _ hf => ⟨observe_of_error hf, fun _ he => crossings_of_error hf he⟩,
    observe_eq_ok_iff, fun hok => ⟨draws_of_ok hok, observe_again hbs hok⟩⟩

/-- The callee calls itself and a test covers a block before the first call
is seen once more. -/
def meanwhile : List Act :=
  [.register codeless,
    .observe (Routine.loader [guarded]) (.concreteCall ⟨3, 1⟩) (.instr ⟨3, 2⟩) (.instr ⟨3, 0⟩),
    .cover 2]

/-- A call that comes back past the end of its method brings the callee in
and draws nothing; one that is seen is seen again without effect, although
nobody knows the callee any more. -/
theorem observe_exact_recurring :
    (∀ a ∈ meanwhile, a.IsHonest) ∧
      ((chronicle [.register caller]).graph.observe (Routine.loader [guarded]) (.instr ⟨0, 0⟩)
          (.instr ⟨0, 2⟩) (.methodEntry ⟨3, 0⟩)).1 =
        (chronicle [.register caller]).graph.act (.discover (Routine.loader [guarded]) 3) ∧
      ((chronicle [.register caller]).graph.observe (Routine.loader [guarded]) (.instr ⟨0, 0⟩)
          (.instr ⟨0, 1⟩) (.methodEntry ⟨3, 0⟩)).2 = .ok () ∧
      ((chronicle ([.register caller] ++ [.observe (Routine.loader [guarded]) (.instr ⟨0, 0⟩)
          (.instr ⟨0, 1⟩) (.methodEntry ⟨3, 0⟩)] ++ meanwhile)).graph.observe (Routine.loader [])
          (.instr ⟨0, 0⟩) (.instr ⟨0, 1⟩) (.methodEntry ⟨3, 0⟩)).2 = .ok () := by
  have hhonest : ∀ a ∈ meanwhile, a.IsHonest := by
    simp only [meanwhile, List.forall_mem_cons, List.not_mem_nil, false_implies, implies_true,
      and_true]
    exact ⟨trivial, Routine.isHonest_loader _, trivial⟩
  obtain ⟨-, hfailed, -, -⟩ := observe_exact [.register caller] meanwhile
    (Routine.loader [guarded]) (.instr ⟨0, 0⟩) (.instr ⟨0, 2⟩) (.methodEntry ⟨3, 0⟩) hhonest
  obtain ⟨-, -, -, hseen⟩ := observe_exact [.register caller] meanwhile
    (Routine.loader [guarded]) (.instr ⟨0, 0⟩) (.instr ⟨0, 1⟩) (.methodEntry ⟨3, 0⟩) hhonest
  exact ⟨hhonest, (hfailed (.unplaced ⟨0, 2⟩) rfl).1, rfl,
    congrArg Prod.snd ((hseen rfl).2 (Routine.loader []))⟩

end SymbolicSearch.FlowGraph
