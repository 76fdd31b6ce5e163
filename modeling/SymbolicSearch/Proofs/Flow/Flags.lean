/-
What the flags of a block say. Four marks are set on blocks while a graph
is in use: that the block's method counts for coverage, that a test has
covered it, and that some state has executed its first instruction or its
last. Each is one bit, and each is all the same a function of what has
happened to the graph (`flags_exact`).

# Since

A flag is up when something has put it up and nothing has taken it down
since. `Since` says so of a list of acts, and what one more act makes of
it (`since_concat`) is what one act makes of a flag (`Stamp`): the step
lemma and the definition are one sentence, read of one graph and of a
whole run.

# New blocks

A block comes in with three flags down, so nothing that went before may
have meant it. A test cannot cover a block that the graph does not have,
and a state cannot execute an instruction of a method that nobody has
registered: what a statement is found in never changes
(`blockAt_chronicle`), so it would have been found in an older block. The
fourth flag comes in as the list of methods that count has it, and that
list goes by the same two acts as the flag (`zone_chronicle`).

# Whose number

Word that a test has covered a block comes with a number of any size, and
it is the remainder that is looked up. So the flag of block 0 goes up when
a block is said to be covered that no graph has (`covered_by_remainder`).
-/
import SymbolicSearch.Proofs.Flow.Partition

namespace SymbolicSearch

/-- The block with other states in it. -/
def Block.manned (b : Block) (s : IdSet) : Block := { b with occupants := s }

/-- What a search has seen of a block is all that its bare form leaves out. -/
theorem Block.bare_eq_iff {b b' : Block} :
    b'.bare = b.bare ↔ b'.id = b.id ∧ b'.method = b.method ∧ b'.first = b.first ∧
      b'.last = b.last ∧ b'.hasCall = b.hasCall ∧ b'.hasThrow = b.hasThrow := by
  simp [Block.bare]

namespace FlowGraph

variable {g g' : FlowGraph} {as bs : List Act} {a : Act} {id : Nat} {b b' : Block} {m : MethodNo}

-- ====================================================== what acts have done

/-- Among the acts is one that marks, given those before it, and no later
one wipes. -/
def Since (as : List Act) (mark : List Act → Act → Prop) (wipe : Act → Prop) : Prop :=
  ∃ pre a post, as = pre ++ a :: post ∧ mark pre a ∧ ∀ x ∈ post, ¬ wipe x

theorem not_since_nil {mark : List Act → Act → Prop} {wipe : Act → Prop} :
    ¬ Since [] mark wipe := by
  intro h
  obtain ⟨pre, a, post, h, -⟩ := h
  simp at h

/-- One act more marks, or leaves the mark that there was. -/
theorem since_concat {mark : List Act → Act → Prop} {wipe : Act → Prop} :
    Since (as ++ [a]) mark wipe ↔ mark as a ∨ (Since as mark wipe ∧ ¬ wipe a) := by
  constructor
  · intro hsince
    obtain ⟨pre, x, post, h, hx, hpost⟩ := hsince
    rcases List.eq_nil_or_concat post with rfl | ⟨post, y, rfl⟩
    · obtain ⟨rfl, hsame⟩ := List.append_inj' h rfl
      obtain rfl := List.singleton_inj.1 hsame
      exact Or.inl hx
    · have hsplit : as ++ [a] = (pre ++ x :: post) ++ [y] := by simpa using h
      obtain ⟨rfl, hsame⟩ := List.append_inj' hsplit rfl
      obtain rfl := List.singleton_inj.1 hsame
      rw [List.concat_eq_append, List.forall_mem_append] at hpost
      exact Or.inr ⟨⟨pre, x, post, rfl, hx, hpost.1⟩, hpost.2 a (List.mem_singleton_self a)⟩
  · intro h
    rcases h with h | ⟨⟨pre, x, post, rfl, hx, hpost⟩, ha⟩
    · exact ⟨as, a, [], rfl, h, by simp⟩
    · refine ⟨pre, x, post ++ [a], by simp, hx, ?_⟩
      rw [List.forall_mem_append]
      exact ⟨hpost, fun y hy => List.mem_singleton.1 hy ▸ ha⟩

/-- The act says that a test has covered the block with a number, and the
graph has that block. -/
def Covers (id : BlockNo) (pre : List Act) (a : Act) : Prop :=
  id < (chronicle pre).graph.size ∧ ∃ n, a = .cover n ∧ n % numberBound = id

/-- The act is an update of a state that succeeds, and the state has
executed the instruction at a site. -/
def Executes (g : FlowGraph) (s : Site) (a : Act) : Prop :=
  ∃ (t : Trail) (h : Handle) (step : Nat) (stmt : Stmt) (t' : Trail) (g' : FlowGraph),
    a = .follow t h step ∧ h.last = some stmt ∧ stmt.site = s ∧ t.follow h step g = .ok (t', g')

theorem executes_follow {t : Trail} {h : Handle} {step : Nat} {s : Site} :
    g.Executes s (.follow t h step) ↔
      ∃ stmt t' g', h.last = some stmt ∧ stmt.site = s ∧ t.follow h step g = .ok (t', g') := by
  constructor
  · intro hexec
    obtain ⟨t₀, h₀, step₀, stmt, t', g', heq, hlast, hsite, hf⟩ := hexec
    obtain ⟨rfl, rfl, rfl⟩ := Act.follow.inj heq
    exact ⟨stmt, t', g', hlast, hsite, hf⟩
  · intro hexec
    obtain ⟨stmt, t', g', hlast, hsite, hf⟩ := hexec
    exact ⟨t, h, step, stmt, t', g', rfl, hlast, hsite, hf⟩

-- ================================================================= one act

/-- What an act makes of the flags of a block that was there. -/
structure Stamp (g : FlowGraph) (a : Act) (id : BlockNo) (b b' : Block) : Prop where
  bare : b'.bare = b.bare
  inZone : b'.inZone = true ↔ a = .enterZone b.method ∨ (b.inZone = true ∧ a ≠ .clearZone)
  covered : b'.covered = true ↔
    (∃ n, a = .cover n ∧ n % numberBound = id) ∨ (b.covered = true ∧ a ≠ .uncover)
  touched : b'.touched = true ↔ g.Executes ⟨b.method, b.first⟩ a ∨ b.touched = true
  visited : b'.visited = true ↔ g.Executes ⟨b.method, b.last⟩ a ∨ b.visited = true

/-- An act that no flag of an older block goes by. -/
def Act.IsPlain : Act → Prop
  | .register _ | .discover _ _ | .observe _ _ _ _ | .leave _ => True
  | _ => False

theorem Stamp.of_plain (ha : a.IsPlain) (s : IdSet) : Stamp g a id b (b.manned s) := by
  have hnot : ∀ site, ¬ g.Executes site a := by
    intro site hexec
    obtain ⟨t, h, step, stmt, t', g', rfl, -⟩ := hexec
    exact ha
  refine ⟨rfl, ?_, ?_, by simp [hnot, Block.manned], by simp [hnot, Block.manned]⟩
  · cases a <;> simp_all [Act.IsPlain, Block.manned]
  · cases a <;> simp_all [Act.IsPlain, Block.manned]

theorem getElem?_enlarge (hb : g.blocks[id]? = some b) (o : Option Routine) :
    (g.enlarge o).blocks[id]? = some b := by
  cases o with
  | none => exact hb
  | some r => rw [enlarge, getElem?_install_of_lt (lt_size_iff.2 ⟨b, hb⟩), hb]

/-- An act through which a method can come in. -/
def Act.Brings : Act → Prop
  | .register _ | .discover _ _ | .observe _ _ _ _ => True
  | _ => False

theorem brings_of_admits {r : Routine} (h : g.admits a = some r) : a.Brings := by
  cases a with
  | register r' => trivial
  | discover load m => trivial
  | observe load site back entry => trivial
  | _ => cases h

/-- Where methods come in, no marks are set. -/
theorem act_of_brings (ha : a.Brings) :
    g.act a = (g.enlarge (g.admits a)).linkAll (g.drawn a) := by
  cases a with
  | register r =>
      show g.register r = g.enlarge (if g.methods.contains r.method then none else some r)
      unfold register
      split <;> rfl
  | discover load m =>
      show g.act (.discover load m) = g.enlarge (g.brought load m)
      rw [act]
      cases hd : g.discover load m with
      | error e => rw [brought_of_error hd]; rfl
      | ok g' => exact discover_eq_ok hd
  | observe load site back entry => exact observe_fst ..
  | _ => exact absurd ha id

theorem getElem?_vacate (hb : g.blocks[id]? = some b) (state : StateNo) (block : Option BlockNo) :
    ∃ s, (Trail.vacate state block g).blocks[id]? = some (b.manned s) := by
  cases block with
  | none => exact ⟨b.occupants, hb⟩
  | some i =>
      rw [Trail.vacate, modifyBlock, Array.getElem?_modify, hb]
      split
      · exact ⟨_, rfl⟩
      · exact ⟨b.occupants, rfl⟩

theorem getElem?_arrival (hb : g.blocks[id]? = some b) (t : Trail) (i index : Nat) :
    ∃ s, (g.arrival t i index).blocks[id]? =
      some (if i = id then Trail.trodden t.state index (b.manned s) else b.manned s) := by
  obtain ⟨s, hs⟩ : ∃ s, (if t.block = some i then g else Trail.vacate t.state t.block g).blocks[id]?
      = some (b.manned s) := by
    split
    · exact ⟨b.occupants, hb⟩
    · exact getElem?_vacate hb t.state t.block
  refine ⟨s, ?_⟩
  rw [arrival, modifyBlock, Array.getElem?_modify, hs]
  split <;> rfl

theorem getElem?_enterZone (hb : g.blocks[id]? = some b) (m : MethodNo) :
    (g.enterZone m).blocks[id]? =
      some { b with inZone := b.inZone || decide (id ∈ g.blocksOf m) } := by
  have hfold : ∀ (ids : List BlockNo) (g : FlowGraph) (b : Block), g.blocks[id]? = some b →
      (ids.foldl (fun g i => g.modifyBlock i fun b => { b with inZone := true }) g).blocks[id]? =
        some { b with inZone := b.inZone || decide (id ∈ ids) } := by
    intro ids
    induction ids with
    | nil =>
        intro g b hb
        simpa using hb
    | cons i rest ih =>
        intro g b hb
        rw [List.foldl_cons]
        by_cases hi : i = id
        · rw [ih _ { b with inZone := true } (by
            rw [modifyBlock, Array.getElem?_modify, hb, if_pos hi]; rfl)]
          simp [hi]
        · rw [ih _ b (by rw [modifyBlock, Array.getElem?_modify, if_neg hi, hb])]
          simp [Ne.symm hi]
  exact hfold _ _ _ hb

namespace Chronicle

variable {c : Chronicle}

/-- A statement that is found is at a site of a block just if it is found in
that block and has the site's index. -/
theorem Sound.site_iff (hc : c.Sound) (ho : c.graph.Owned) {stmt : Stmt} {i k : Nat}
    (hfound : c.graph.blockAt stmt = .ok i) (hb : c.graph.blocks[id]? = some b)
    (hk : b.holds k = true) : stmt.site = ⟨b.method, k⟩ ↔ i = id ∧ stmt.site.index = k := by
  constructor
  · intro h
    have hhere : c.graph.blockAt stmt = .ok id :=
      (hc.blockAt_iff ho).2 ⟨b, hb, by rw [h], by rw [h]; exact hk⟩
    exact ⟨Except.ok.inj (hfound.symm.trans hhere), by rw [h]⟩
  · intro h
    obtain ⟨rfl, rfl⟩ := h
    obtain ⟨b', hb', hm, -⟩ := (hc.blockAt_iff ho).1 hfound
    obtain rfl := Option.some.inj (hb.symm.trans hb')
    rw [hm]

/-- A block holds its first index and its last. -/
theorem Sound.holds_ends (hc : c.Sound) (ho : c.graph.Owned) (hb : c.graph.blocks[id]? = some b) :
    b.holds b.first = true ∧ b.holds b.last = true := by
  obtain ⟨r, base, k, s, -, -, hk, -, heq⟩ := hc.exists_run (ho id b hb) hb
  have hle : b.first ≤ b.last := by
    rw [Block.first_of_bare heq, Block.last_of_bare heq]
    exact (Routine.mem_spans.1 (List.mem_of_getElem? hk)).2.1
  simp [Block.holds, hle]

theorem Sound.stamp_follow (hc : c.Sound) (ho : c.graph.Owned)
    (hb : c.graph.blocks[id]? = some b) (t : Trail) (h : Handle) (step : Nat) :
    ∃ b', (c.graph.act (.follow t h step)).blocks[id]? = some b' ∧
      Stamp c.graph (.follow t h step) id b b' := by
  rw [FlowGraph.act]
  cases hf : t.follow h step c.graph with
  | error e =>
      refine ⟨b, hb, rfl, by simp, by simp, ?_, ?_⟩
      · simp [executes_follow, hf]
      · simp [executes_follow, hf]
  | ok moved =>
      obtain ⟨t', g'⟩ := moved
      rcases follow_eq_ok hf with ⟨hlast, -, rfl⟩ | ⟨stmt, i, B, hlast, hB, rfl, -⟩
      · refine ⟨b, hb, rfl, by simp, by simp, ?_, ?_⟩
        · simp [executes_follow, hlast]
        · simp [executes_follow, hlast]
      · -- the state arrives somewhere, and marks this block if it is here
        have hfound : c.graph.blockAt stmt = .ok i := by rw [blockAt, hB]; rfl
        have hexec : ∀ {k}, b.holds k = true →
            (c.graph.Executes ⟨b.method, k⟩ (.follow t h step) ↔
              i = id ∧ stmt.site.index = k) := by
          intro k hk
          rw [← hc.site_iff ho hfound hb hk]
          simp [executes_follow, hlast, hf]
        obtain ⟨hfirst, hlast'⟩ := hc.holds_ends ho hb
        obtain ⟨s, hs⟩ := getElem?_arrival hb t i stmt.site.index
        refine ⟨_, hs, ?_, ?_, ?_, ?_, ?_⟩
        · split <;> rfl
        · split <;> simp [Trail.trodden, Block.manned]
        · split <;> simp [Trail.trodden, Block.manned]
        · rw [hexec hfirst]
          split <;> simp_all [Trail.trodden, Block.manned, Block.beginsAt, or_comm]
        · rw [hexec hlast']
          split <;> simp_all [Trail.trodden, Block.manned, Block.endsAt, or_comm]

/-- An act leaves its stamp on every block that there was. -/
theorem Sound.stamp (hc : c.Sound) (ho : c.graph.Owned) (hb : c.graph.blocks[id]? = some b)
    (a : Act) : ∃ b', (c.graph.act a).blocks[id]? = some b' ∧ Stamp c.graph a id b b' := by
  have hplain : ∀ s, a.IsPlain → (c.graph.act a).blocks[id]? = some (b.manned s) →
      ∃ b', (c.graph.act a).blocks[id]? = some b' ∧ Stamp c.graph a id b b' :=
    fun s ha hs => ⟨_, hs, Stamp.of_plain ha s⟩
  have hbrings : a.Brings → (c.graph.act a).blocks[id]? = some (b.manned b.occupants) := by
    intro ha
    rw [act_of_brings ha, linkAll_blocks, getElem?_enlarge hb]
    rfl
  have howned : ∀ m, id ∈ c.graph.blocksOf m ↔ m = b.method := (hc.partitioned ho).owned id b hb
  cases a with
  | register r => exact hplain _ trivial (hbrings trivial)
  | discover load m => exact hplain _ trivial (hbrings trivial)
  | observe load site back entry => exact hplain _ trivial (hbrings trivial)
  | enterZone m =>
      refine ⟨_, getElem?_enterZone hb m, rfl, ?_, by simp, by simp [Executes], by simp [Executes]⟩
      simp [howned, or_comm]
  | clearZone =>
      refine ⟨{ b with inZone := false }, ?_, rfl, by simp, by simp, by simp [Executes],
        by simp [Executes]⟩
      show (c.graph.blocks.map _)[id]? = _
      rw [Array.getElem?_map, hb]
      rfl
  | cover n =>
      refine ⟨{ b with covered := b.covered || decide (n % numberBound = id) }, ?_, rfl, by simp,
        by simp [or_comm], by simp [Executes], by simp [Executes]⟩
      show (c.graph.blocks.modify _ _)[id]? = _
      rw [Array.getElem?_modify, hb]
      split <;> simp_all
  | uncover =>
      refine ⟨{ b with covered := false }, ?_, rfl, by simp, by simp, by simp [Executes],
        by simp [Executes]⟩
      show (c.graph.blocks.map _)[id]? = _
      rw [Array.getElem?_map, hb]
      rfl
  | follow t h step => exact hc.stamp_follow ho hb t h step
  | leave t =>
      obtain ⟨s, hs⟩ := getElem?_vacate hb t.state t.block
      exact hplain s trivial hs

end Chronicle

/-- A block that an act puts into a graph has come in with a method, and its
flags are those of a new block. -/
theorem made_of_le (hid : g.size ≤ id) (hb : (g.act a).blocks[id]? = some b') :
    a.Brings ∧ ∃ r k s, b' = Block.ofSpan r (r.method ∈ g.zone) (g.size + k) s := by
  have hlt : id < (g.act a).size := lt_size_iff.2 ⟨b', hb⟩
  rw [(act_spec g a).size, linkAll_size] at hlt
  cases hr : g.admits a with
  | none =>
      rw [hr] at hlt
      exact absurd hlt (Nat.not_lt.2 hid)
  | some r =>
      have ha := brings_of_admits hr
      obtain ⟨k, rfl⟩ := Nat.exists_eq_add_of_le hid
      rw [act_of_brings ha, linkAll_blocks, hr, enlarge, getElem?_install_add] at hb
      obtain ⟨s, -, hs⟩ := Option.map_eq_some_iff.1 hb
      exact ⟨ha, r, k, s, hs.symm⟩

-- ========================================================== the methods that count

theorem zone_linkAll (g : FlowGraph) (es : List Edge) : (g.linkAll es).zone = g.zone := by
  rw [linkAll_eq]

theorem zone_enlarge (g : FlowGraph) (o : Option Routine) : (g.enlarge o).zone = g.zone := by
  cases o with
  | none => rfl
  | some r => exact zone_linkAll (g.grownBy r) _

theorem zone_vacate (g : FlowGraph) (state : StateNo) (block : Option BlockNo) :
    (Trail.vacate state block g).zone = g.zone := by
  cases block <;> rfl

theorem zone_enterZone (g : FlowGraph) (m : MethodNo) :
    (g.enterZone m).zone = g.zone.insert m := by
  apply enterZone_induction (P := fun g' => g'.zone = g.zone.insert m) m
  · rfl
  · intro g' id h
    exact h

theorem zone_follow {t t' : Trail} {h : Handle} {step : Nat}
    (hf : t.follow h step g = .ok (t', g')) : g'.zone = g.zone := by
  rcases follow_eq_ok hf with ⟨-, -, rfl⟩ | ⟨stmt, id, b, -, -, rfl, -⟩
  · rfl
  · show (if t.block = some id then g else Trail.vacate t.state t.block g).zone = g.zone
    split
    · rfl
    · exact zone_vacate g _ _

theorem mem_zone_act : m ∈ (g.act a).zone ↔ a = .enterZone m ∨ (m ∈ g.zone ∧ a ≠ .clearZone) := by
  have hsame : a ≠ .enterZone m → a ≠ .clearZone → (g.act a).zone = g.zone →
      (m ∈ (g.act a).zone ↔ a = .enterZone m ∨ (m ∈ g.zone ∧ a ≠ .clearZone)) := by
    intro henter hclear h
    simp [henter, hclear, h]
  have hbrings : a.Brings → (g.act a).zone = g.zone := by
    intro ha
    rw [act_of_brings ha, zone_linkAll, zone_enlarge]
  cases a with
  | register r => exact hsame (by simp) (by simp) (hbrings trivial)
  | discover load m => exact hsame (by simp) (by simp) (hbrings trivial)
  | observe load site back entry => exact hsame (by simp) (by simp) (hbrings trivial)
  | enterZone m' =>
      rw [act, zone_enterZone, IdSet.mem_insert]
      simp [eq_comm]
  | clearZone => simp [act, clearZone, mapBlocks]
  | cover n => exact hsame (by simp) (by simp) rfl
  | uncover => exact hsame (by simp) (by simp) rfl
  | follow t h step =>
      refine hsame (by simp) (by simp) ?_
      rw [act]
      cases hf : t.follow h step g with
      | error e => rfl
      | ok moved => exact zone_follow hf
  | leave t => exact hsame (by simp) (by simp) (zone_vacate g _ _)

/-- A method counts just if it was said to since the last time that none
was. -/
theorem zone_chronicle (as : List Act) (m : MethodNo) :
    m ∈ (chronicle as).graph.zone ↔ Since as (fun _ a => a = .enterZone m) (· = .clearZone) := by
  induction as using List.reverseRecOn with
  | nil => exact iff_of_false (IdSet.not_mem_empty m) not_since_nil
  | append_singleton as a ih =>
      rw [chronicle_concat, since_concat, ← ih]
      exact mem_zone_act

-- =================================================================== a run

/-- Some state has executed the instruction at a site. -/
def Executed (as : List Act) (s : Site) : Prop :=
  Since as (fun pre => (chronicle pre).graph.Executes s) fun _ => False

theorem executed_concat {s : Site} :
    Executed (as ++ [a]) s ↔ (chronicle as).graph.Executes s a ∨ Executed as s := by
  rw [Executed, since_concat, and_iff_left not_false]
  rfl

/-- What was said to be covered was there. -/
theorem lt_size_of_covers {wipe : Act → Prop} (h : Since as (Covers id) wipe) :
    id < (chronicle as).graph.size := by
  obtain ⟨pre, a, post, rfl, hcovers, -⟩ := h
  exact (grows_chronicle pre (a :: post)).lt_size hcovers.1

/-- What has been executed is in a block that was there. -/
theorem lt_size_of_executed (hhonest : ∀ a ∈ as ++ bs, a.IsHonest) {k : Nat}
    (hb : (chronicle (as ++ bs)).graph.blocks[id]? = some b) (hk : b.holds k = true)
    (h : Executed as ⟨b.method, k⟩) : id < (chronicle as).graph.size := by
  obtain ⟨pre, a, post, rfl, ⟨t, h, step, stmt, t', g', -, hlast, hsite, hf⟩, -⟩ := h
  rcases follow_eq_ok hf with ⟨hnone, -⟩ | ⟨stmt', i, B, hlast', hB, -⟩
  · rw [hlast] at hnone
    cases hnone
  · obtain rfl := Option.some.inj (hlast.symm.trans hlast')
    have hthen : (chronicle pre).graph.blockAt stmt = .ok i := by rw [blockAt, hB]; rfl
    -- the statement is found now in the block in which it was found then
    have hlater : ∀ x ∈ (a :: post) ++ bs, x.IsHonest :=
      fun x hx => hhonest x (by rw [List.append_assoc]; exact List.mem_append_right _ hx)
    have hnow := blockAt_chronicle pre ((a :: post) ++ bs) hlater hthen
    rw [← List.append_assoc] at hnow
    have hhere := ((sound_chronicle _).blockAt_iff (owned_chronicle _ hhonest)).2
      ⟨b, hb, by rw [hsite], by rw [hsite]; exact hk⟩
    obtain rfl := Except.ok.inj (hnow.symm.trans hhere)
    exact (grows_chronicle pre (a :: post)).lt_size (lt_size_of_blockAt hthen)

/-- The flags of a block say what has happened so far. -/
structure Told (as : List Act) (id : BlockNo) (b : Block) : Prop where
  inZone : b.inZone = true ↔ Since as (fun _ a => a = .enterZone b.method) (· = .clearZone)
  covered : b.covered = true ↔ Since as (Covers id) (· = .uncover)
  touched : b.touched = true ↔ Executed as ⟨b.method, b.first⟩
  visited : b.visited = true ↔ Executed as ⟨b.method, b.last⟩

/-- The stamp of one act more on a block that was there. -/
theorem Told.stamped (ht : Told as id b) (hid : id < (chronicle as).graph.size)
    (hs : Stamp (chronicle as).graph a id b b') : Told (as ++ [a]) id b' := by
  obtain ⟨-, hm, hfirst, hlast, -⟩ := Block.bare_eq_iff.1 hs.bare
  refine ⟨?_, ?_, ?_, ?_⟩
  · rw [since_concat, hs.inZone, ht.inZone, hm]
  · rw [since_concat, hs.covered, ht.covered, Covers, and_iff_right hid]
  · rw [executed_concat, hs.touched, ht.touched, hm, hfirst]
  · rw [executed_concat, hs.visited, ht.visited, hm, hlast]

/-- A new block has nothing to tell but whether its method counts. -/
theorem told_of_made (hhonest : ∀ x ∈ as ++ [a], x.IsHonest)
    (hid : (chronicle as).graph.size ≤ id)
    (hb : (chronicle (as ++ [a])).graph.blocks[id]? = some b) : Told (as ++ [a]) id b := by
  obtain ⟨hfirst, hlast⟩ :=
    (sound_chronicle _).holds_ends (owned_chronicle _ hhonest) hb
  have hb' : ((chronicle as).graph.act a).blocks[id]? = some b := by
    rwa [chronicle_concat] at hb
  obtain ⟨ha, r, k, s, heq⟩ := made_of_le hid hb'
  have hnot : ∀ {i}, b.holds i = true → ¬ Executed (as ++ [a]) ⟨b.method, i⟩ := by
    intro i hi hexec
    rcases executed_concat.1 hexec with ⟨t, h, step, stmt, t', g', rfl, -⟩ | hexec
    · -- an update brings nothing in
      exact ha
    · exact absurd (lt_size_of_executed hhonest hb hi hexec) (Nat.not_lt.2 hid)
  refine ⟨?_, ?_, ?_, ?_⟩
  · rw [since_concat, ← zone_chronicle, heq]
    cases a <;> simp_all [Act.Brings, Block.ofSpan]
  · refine iff_of_false (by rw [heq]; exact Bool.false_ne_true) fun h => ?_
    rcases since_concat.1 h with ⟨hlt, -⟩ | ⟨h, -⟩
    · exact absurd hlt (Nat.not_lt.2 hid)
    · exact absurd (lt_size_of_covers h) (Nat.not_lt.2 hid)
  · exact iff_of_false (by rw [heq]; exact Bool.false_ne_true) (hnot hfirst)
  · exact iff_of_false (by rw [heq]; exact Bool.false_ne_true) (hnot hlast)

theorem told_chronicle (as : List Act) (has : ∀ a ∈ as, a.IsHonest) :
    ∀ {id : Nat} {b : Block}, (chronicle as).graph.blocks[id]? = some b → Told as id b := by
  induction as using List.reverseRecOn with
  | nil =>
      intro id b hb
      simp [chronicle, empty] at hb
  | append_singleton as a ih =>
      intro id b hb
      have hearlier : ∀ x ∈ as, x.IsHonest := fun x hx => has x (List.mem_append_left _ hx)
      by_cases hid : id < (chronicle as).graph.size
      · obtain ⟨b₀, hb₀⟩ := lt_size_iff.1 hid
        obtain ⟨b', hb', hs⟩ :=
          (sound_chronicle as).stamp (owned_chronicle as hearlier) hb₀ a
        rw [chronicle_concat] at hb
        obtain rfl := Option.some.inj (hb'.symm.trans hb)
        exact (ih hearlier hb₀).stamped hid hs
      · exact told_of_made has (Nat.le_of_not_lt hid) hb

/-- Whatever has happened to a graph, the flags of a block are what it came
to. The block's method counts just if it was said to since the last time
that none was, whether it had blocks then or not. A test has covered the
block just if one was said to, since the last time that all was forgotten
and while the block was there, have covered a block whose number has the
block's own for its remainder. Some state has executed the block's first
instruction, or its last, just if an update that succeeded found one to
have. All else that a block says stays as it is, whatever comes next. -/
theorem flags_exact (as bs : List Act) (has : ∀ a ∈ as, a.IsHonest) {id : BlockNo} {b : Block}
    (hb : (chronicle as).graph.blocks[id]? = some b) :
    Told as id b ∧ ∃ b', (chronicle (as ++ bs)).graph.blocks[id]? = some b' ∧
      b'.id = b.id ∧ b'.method = b.method ∧ b'.first = b.first ∧ b'.last = b.last ∧
      b'.hasCall = b.hasCall ∧ b'.hasThrow = b.hasThrow := by
  refine ⟨told_chronicle as has hb, ?_⟩
  obtain ⟨b', hb', hbare⟩ := (grows_chronicle as bs).block hb
  exact ⟨b', hb', Block.bare_eq_iff.1 hbare⟩

/-- A block that no graph has is said to be covered, and it is block 0 that
is marked, although nothing was said of it. -/
theorem covered_by_remainder :
    Act.cover 0 ∉ [Act.register guarded, .cover numberBound] ∧
      ∃ b, (chronicle [.register guarded, .cover numberBound]).graph.blocks[0]? = some b ∧
        b.covered = true := by
  refine ⟨by simp [numberBound, UInt32.size], _, rfl, ?_⟩
  have htold : Told [.register guarded, .cover numberBound] 0 _ :=
    (flags_exact _ [] (by
      intro a ha
      simp only [List.mem_cons, List.not_mem_nil, or_false] at ha
      rcases ha with rfl | rfl <;> trivial) rfl).1
  exact htold.covered.2 ⟨[.register guarded], .cover numberBound, [], rfl,
    ⟨by decide, numberBound, rfl, rfl⟩, by simp⟩

end FlowGraph

end SymbolicSearch
