/-
What a delta lists, said by what happened. A pool under an oracle that
answers lists what its notes say; here the notes are done away with. A block
is listed just if it was made since the question before or some notice since
then touched it (`Touches`), a state just if it is tracked and some notice
since then stirred it while it has been tracked (`Stirs`). Nothing is left
over from earlier rounds and nothing is listed twice (`delta_exact`).

# Through the notes

`noted` and `remarked` collect what each notice has the pool note
(`mem_noted`, `mem_remarked`). For blocks the notes are touches, up to new
blocks that the pool has looked at (`mem_notes`). For states they are stirs,
up to states that have gone since: one that is tracked in the end but has
gone in between has come again, and coming is a stir (`remarked_iff`).
-/
import SymbolicSearch.Proofs.Guided.Occupancy
import SymbolicSearch.Proofs.Guided.Omissions

namespace SymbolicSearch.Guided

variable {v w : Scene Guided} {n : Notice} {step : Nat} {b : BlockNo} {id : StateNo}

-- ============================================================ notice by notice

/-- What is collected notice by notice was collected at some notice. -/
theorem mem_collected {f : Scene Guided → List Act → List Nat}
    {e : Guided → Notice → Nat → FlowGraph → List Nat} (hnil : ∀ w, f w [] = [])
    (hcons : ∀ w a as, f w (a :: as) = (match (a : Act) with
      | .tell n step => e w.pool n step w.graph
      | _ => []) ++ f (w.act a) as) {w : Scene Guided} {as : List Act} {x : Nat} :
    x ∈ f w as ↔ ∃ pre n step post, as = pre ++ .tell n step :: post ∧
      x ∈ e (w.run pre).pool n step (w.run pre).graph := by
  induction as generalizing w with
  | nil =>
      rw [hnil]
      refine iff_of_false List.not_mem_nil ?_
      intro h
      obtain ⟨pre, n, step, post, h, -⟩ := h
      exact List.append_ne_nil_of_right_ne_nil pre (List.cons_ne_nil _ post) h.symm
  | cons a as ih =>
      rw [hcons, List.mem_append, ih]
      constructor
      · intro h
        rcases h with h | ⟨pre, n, step, post, rfl, h⟩
        · cases a with
          | peek => cases h
          | graph a => cases h
          | tell n step => exact ⟨[], n, step, as, rfl, h⟩
        · exact ⟨a :: pre, n, step, post, rfl, h⟩
      · intro h
        obtain ⟨pre, n, step, post, heq, h⟩ := h
        cases pre with
        | nil =>
            obtain ⟨rfl, rfl⟩ := List.cons.inj heq
            exact Or.inl h
        | cons a' pre =>
            obtain ⟨rfl, rfl⟩ := List.cons.inj heq
            exact Or.inr ⟨pre, n, step, post, rfl, h⟩

theorem mem_noted {as : List Act} : b ∈ noted w as ↔
    ∃ pre n step post, as = pre ++ .tell n step :: post ∧
      b ∈ (w.run pre).pool.notes n step (w.run pre).graph :=
  mem_collected (fun _ => rfl) fun _ _ _ => rfl

theorem mem_remarked {as : List Act} : id ∈ remarked w as ↔
    ∃ pre n step post, as = pre ++ .tell n step :: post ∧
      id ∈ (w.run pre).pool.remarks n step (w.run pre).graph :=
  mem_collected (fun _ => rfl) fun _ _ _ => rfl

-- ==================================================================== touches

/-- A notice touches a block: a tracked state was in it before it has moved
or is in it then, a state goes that stands in it, or one goes that has seen
it and could still have been run. -/
inductive Touches (v : Scene Guided) (b : BlockNo) : Notice → Nat → Prop
  | moved {h : Handle} {step : Nat} (ht : v.pool.tracked.contains h.id = true)
    (hok : (v.tell (.moved h) step).result = .ok ())
    (hb : v.pool.block? h.id = some b ∨
      (v.act (.tell (.moved h) step)).pool.block? h.id = some b) : Touches v b (.moved h) step
  | gone {h : Handle} {step : Nat} {w : Walker} (hw : v.pool.tracked.find? h.id = some w)
    (hb : w.trail.block = some b) : Touches v b (.removed h) step
  | seen {h : Handle} {step : Nat} {w : Walker} (hw : v.pool.tracked.find? h.id = some w)
    (hrun : w.handle.satisfiable = true) (hb : w.trail.history.contains b = true) :
    Touches v b (.removed h) step

theorem mem_leavings_iff {u : Walker} : b ∈ leavings u ↔ u.trail.block = some b ∨
    (u.handle.satisfiable = true ∧ u.trail.history.contains b = true) := by
  rw [leavings, List.mem_append, Option.mem_toList]
  refine or_congr Iff.rfl ?_
  cases u.handle.satisfiable with
  | false => exact iff_of_false List.not_mem_nil fun h => nomatch h.1
  | true => exact IdMap.mem_keys.trans (and_iff_right rfl).symm

/-- The blocks between which a state moves are where it was and where it
is. -/
theorem mem_passage_iff {t t' : Trail} : b ∈ passage t t' ↔ t.block = some b ∨ t'.block = some b := by
  rw [mem_passage]
  constructor
  · exact Or.imp_left And.left
  · intro h
    rcases h with h | h
    · by_cases heq : t.block = t'.block
      · exact Or.inr (heq ▸ h)
      · exact Or.inl ⟨h, heq⟩
    · exact Or.inr h

/-- The blocks that a notice has the pool note are those that it touches. A
notice of states that come in has it look at the graph instead. -/
theorem mem_notes : b ∈ v.pool.notes n step v.graph ↔
    Touches v b n step ∨ ((∃ hs, n = .added hs) ∧ v.pool.mark ≤ b ∧ b < v.graph.size) := by
  cases n with
  | added hs =>
      refine mem_since.trans ⟨fun h => Or.inr ⟨⟨hs, rfl⟩, h⟩, ?_⟩
      intro h
      rcases h with h | ⟨-, h⟩
      · cases h
      · exact h
  | removed h =>
      have hnot : ¬∃ hs, Notice.removed h = .added hs := by simp
      refine Iff.trans ?_ (or_iff_left fun h => hnot h.1).symm
      cases ht : v.pool.tracked.find? h.id with
      | none =>
          simp only [notes, ht]
          refine iff_of_false List.not_mem_nil ?_
          intro htouch
          rcases htouch with _ | ⟨hw, -⟩ | ⟨hw, -, -⟩ <;> cases ht.symm.trans hw
      | some u =>
          simp only [notes, ht, mem_leavings_iff]
          constructor
          · intro hmem
            rcases hmem with hb | ⟨hrun, hb⟩
            · exact .gone ht hb
            · exact .seen ht hrun hb
          · intro htouch
            rcases htouch with _ | ⟨hw, hb⟩ | ⟨hw, hrun, hb⟩
            · obtain rfl := Option.some.inj (ht.symm.trans hw)
              exact Or.inl hb
            · obtain rfl := Option.some.inj (ht.symm.trans hw)
              exact Or.inr ⟨hrun, hb⟩
  | moved h =>
      have hnot : ¬∃ hs, Notice.moved h = .added hs := by simp
      refine Iff.trans ?_ (or_iff_left fun h => hnot h.1).symm
      obtain ⟨ht, -⟩ | ⟨u, e, ht, hf, hresult, -⟩ | ⟨u, t, g, ht, hf, hresult, hact⟩ :=
        moved_cases v h step
      · simp only [notes, ht]
        refine iff_of_false List.not_mem_nil ?_
        intro htouch
        obtain ⟨hcontains, -, -⟩ := htouch
        rw [IdMap.contains_eq_false.2 ht] at hcontains
        cases hcontains
      · simp only [notes, ht, hf]
        refine iff_of_false List.not_mem_nil ?_
        intro htouch
        obtain ⟨-, hok, -⟩ := htouch
        cases hresult.symm.trans hok
      · have hbefore : v.pool.block? h.id = u.trail.block := block?_of_tracked ht
        have hafter : (v.act (.tell (.moved h) step)).pool.block? h.id = t.block := by
          refine block?_of_tracked (w := ⟨h, t⟩) ?_
          rw [hact, IdMap.find?_insert, if_pos rfl]
        simp only [notes, ht, hf, mem_passage_iff]
        rw [← hbefore, ← hafter]
        refine ⟨fun hb => .moved (IdMap.contains_iff.2 ⟨u, ht⟩) hresult hb, ?_⟩
        intro htouch
        obtain ⟨-, -, hb⟩ := htouch
        exact hb

-- ====================================================================== stirs

/-- A notice stirs a state: it brings it in, it tells of it that it has moved
and that can be followed, or it makes it gain a child, lose one, or lose its
parent. -/
inductive Stirs (v : Scene Guided) (id : StateNo) (n : Notice) (step : Nat) : Prop
  | came (hnew : v.pool.tracked.contains id = false)
    (hin : (v.act (.tell n step)).pool.tracked.contains id = true)
  | updated {h : Handle} (hn : n = .moved h) (hid : h.id = id)
    (ht : v.pool.tracked.contains id = true) (hok : (v.tell n step).result = .ok ())
  | gained {c : StateNo} (hc : c ∉ v.pool.childrenOf id)
    (hc' : c ∈ (v.act (.tell n step)).pool.childrenOf id)
  | lost {c : StateNo} (hc : c ∈ v.pool.childrenOf id)
    (hc' : c ∉ (v.act (.tell n step)).pool.childrenOf id)
  | orphaned {k : StateNo} (hk : v.pool.parentOf? id = some k)
    (hk' : (v.act (.tell n step)).pool.parentOf? id = none)

/-- Where no state comes in and no link changes, a state is stirred only if
it is told of it that it has moved. -/
theorem Stirs.updated_of_same (h : Stirs v id n step)
    (htracked : (v.act (.tell n step)).pool.tracked.contains id = true →
      v.pool.tracked.contains id = true)
    (hparent : (v.act (.tell n step)).pool.parentOf? id = v.pool.parentOf? id)
    (hchildren : (v.act (.tell n step)).pool.childrenOf id = v.pool.childrenOf id) :
    ∃ h, n = .moved h ∧ h.id = id ∧ v.pool.tracked.contains id = true ∧
      (v.tell n step).result = .ok () := by
  cases h with
  | came hnew hin => cases hnew.symm.trans (htracked hin)
  | updated hn hid ht hok => exact ⟨_, hn, hid, ht, hok⟩
  | gained hc hc' => exact absurd (hchildren ▸ hc') hc
  | lost hc hc' => exact absurd hc (hchildren ▸ hc')
  | orphaned hk hk' => cases (hparent.symm.trans hk').symm.trans hk

section

variable (hs : v.pool.Sound v.graph) (hf : v.pool.Forest)

include hs hf

theorem mem_remarks_added {batch : List Handle}
    (ht : (v.act (.tell (.added batch) step)).pool.tracked.contains id = true) :
    id ∈ v.pool.remarks (.added batch) step v.graph ↔ Stirs v id (.added batch) step := by
  have hpar := adopts_parent? hs
  have hpool : (v.act (.tell (.added batch) step)).pool = v.pool.takeIn batch step v.graph := rfl
  have hcontains : (v.act (.tell (.added batch) step)).pool.tracked.contains id = true ↔
      id ∈ batch.map Handle.id ∨ v.pool.tracked.contains id = true := by
    rw [hpool, takeIn_eq]
    exact contains_foldl_track
  have hchildren : ∀ k c, c ∈ (v.act (.tell (.added batch) step)).pool.childrenOf k ↔
      c ∈ v.pool.childrenOf k ∨ (c ∈ batch.map Handle.id ∧ v.pool.tracked.contains c = false ∧
        v.pool.parent?.map Prod.fst = some k) := by
    intro k c
    rw [hpool, takeIn_eq]
    exact mem_childrenOf_foldl_track hpar
  have hforest : (v.act (.tell (.added batch) step)).pool.Forest := hf.takeIn hs batch step
  have helders : id ∈ v.pool.elders batch ↔
      (∃ c ∈ batch.map Handle.id, v.pool.tracked.contains c = false) ∧
        v.pool.parent?.map Prod.fst = some id := by
    have hany : (batch.any fun h => !v.pool.tracked.contains h.id) = true ↔
        ∃ c ∈ batch.map Handle.id, v.pool.tracked.contains c = false := by
      simp only [List.any_eq_true, Bool.not_eq_true', List.mem_map, exists_exists_and_eq_and]
    unfold elders
    rw [← hany]
    split
    next h => exact Option.mem_toList.trans (and_iff_right h).symm
    next h => exact iff_of_false List.not_mem_nil fun h' => h h'.1
  rw [remarks, List.mem_append, List.mem_filter, Bool.not_eq_true', helders]
  constructor
  · intro h
    rcases h with ⟨-, hnew⟩ | ⟨⟨c, hc, hnew⟩, hparent⟩
    · exact .came hnew ht
    · refine .gained (fun hold => ?_) ((hchildren id c).2 (Or.inr ⟨hc, hnew, hparent⟩))
      cases hnew.symm.trans (hf.tracked ((hf.linked id c).2 hold)).2
  · intro h
    cases h with
    | came hnew hin =>
        refine Or.inl ⟨(hcontains.1 hin).resolve_right fun hold => ?_, hnew⟩
        cases hnew.symm.trans hold
    | updated hn hid ht hok => cases hn
    | gained hc hc' =>
        obtain ⟨hmem, hnew, hparent⟩ := ((hchildren id _).1 hc').resolve_left hc
        exact Or.inr ⟨⟨_, hmem, hnew⟩, hparent⟩
    | lost hc hc' => exact absurd ((hchildren id _).2 (Or.inl hc)) hc'
    | orphaned hk hk' =>
        have hkept := (hchildren _ id).2 (Or.inl ((hf.linked _ id).1 hk))
        cases hk'.symm.trans ((hforest.linked _ id).2 hkept)

omit hs in
theorem mem_remarks_removed {h : Handle}
    (ht : (v.act (.tell (.removed h) step)).pool.tracked.contains id = true) :
    id ∈ v.pool.remarks (.removed h) step v.graph ↔ Stirs v id (.removed h) step := by
  have hpool : (v.act (.tell (.removed h) step)).pool = (v.pool.letGo h v.graph).1 := rfl
  cases hw : v.pool.tracked.find? h.id with
  | none =>
      have hsame : (v.act (.tell (.removed h) step)).pool = v.pool := by
        rw [hpool, letGo, hw]
      simp only [remarks, hw]
      refine iff_of_false List.not_mem_nil fun hstirs => ?_
      obtain ⟨_, hn, -⟩ := hstirs.updated_of_same (by rw [hsame]; exact fun h => h) (by rw [hsame])
        (by rw [hsame])
      cases hn
  | some u =>
      rw [hpool] at ht
      obtain ⟨hne, hold⟩ := (contains_letGo hw).1 ht
      have hparent : u.trail.parent = some id ↔ h.id ∈ v.pool.childrenOf id := by
        rw [← hf.linked, parentOf?_of_tracked hw]
      have hchild : id ∈ u.trail.children ↔ v.pool.parentOf? id = some h.id := by
        rw [hf.linked, childrenOf_of_tracked hw]
      simp only [remarks, hw]
      rw [mem_kin, hparent, hchild]
      constructor
      · intro h
        rcases h with h' | h'
        · refine .lost h' fun hstill => ?_
          rw [hpool] at hstill
          exact ((mem_childrenOf_letGo hf hw).1 hstill).2.2 rfl
        · refine .orphaned h' ?_
          rw [hpool, Option.eq_none_iff_forall_ne_some]
          intro k hk
          obtain ⟨hk, hkne, -⟩ := (begets_letGo hf hw).1 hk
          exact hkne (Option.some.inj (hk.symm.trans h'))
      · intro hstirs
        cases hstirs with
        | came hnew hin => cases hnew.symm.trans hold
        | updated hn hid ht hok => cases hn
        | gained hc hc' =>
            rw [hpool] at hc'
            exact absurd ((mem_childrenOf_letGo hf hw).1 hc').1 hc
        | lost hc hc' =>
            rw [hpool, mem_childrenOf_letGo hf hw] at hc'
            have heq := Classical.not_not.1 fun hcne => hc' ⟨hc, hne, hcne⟩
            exact Or.inl (heq ▸ hc)
        | orphaned hk hk' =>
            right
            rw [hpool] at hk'
            by_contra hnot
            have hstill := (begets_letGo (g := v.graph) hf hw).2
              ⟨hk, fun heq => hnot (heq ▸ hk), hne⟩
            cases hk'.symm.trans hstill

omit hs hf in
theorem mem_remarks_moved {h : Handle} :
    id ∈ v.pool.remarks (.moved h) step v.graph ↔ Stirs v id (.moved h) step := by
  obtain ⟨hparent, hchildren⟩ := kin_followUp v.pool h step v.graph id
  have hupdated : (v.act (.tell (.moved h) step)).pool.tracked.contains id = true →
      v.pool.tracked.contains id = true := by
    intro hin
    obtain ⟨-, -, hact⟩ | ⟨-, -, -, -, -, hact⟩ | ⟨u, t, g, ht, -, -, hact⟩ :=
      moved_cases v h step
    · exact hact ▸ hin
    · exact hact ▸ hin
    · rw [hact, IdMap.contains, IdMap.find?_insert] at hin
      by_cases hid : id = h.id
      · exact hid ▸ IdMap.contains_iff.2 ⟨u, ht⟩
      · rw [if_neg hid] at hin
        exact hin
  have hstirs : Stirs v id (.moved h) step ↔
      h.id = id ∧ v.pool.tracked.contains id = true ∧ (v.tell (.moved h) step).result = .ok () := by
    constructor
    · intro hstirs
      obtain ⟨h', hn, hid, ht, hok⟩ := hstirs.updated_of_same hupdated hparent hchildren
      obtain rfl := Notice.moved.inj hn
      exact ⟨hid, ht, hok⟩
    · intro hmoved
      obtain ⟨hid, ht, hok⟩ := hmoved
      exact .updated rfl hid ht hok
  rw [hstirs]
  obtain ⟨ht, -⟩ | ⟨u, e, ht, hfollow, hresult, -⟩ | ⟨u, t, g, ht, hfollow, hresult, -⟩ :=
    moved_cases v h step
  · simp only [remarks, ht]
    refine iff_of_false List.not_mem_nil ?_
    intro hmoved
    obtain ⟨rfl, hcontains, -⟩ := hmoved
    cases (IdMap.contains_eq_false.2 ht).symm.trans hcontains
  · simp only [remarks, ht, hfollow]
    refine iff_of_false List.not_mem_nil ?_
    intro hmoved
    obtain ⟨-, -, hok⟩ := hmoved
    cases hresult.symm.trans hok
  · simp only [remarks, ht, hfollow, List.mem_singleton]
    constructor
    · intro hid
      subst hid
      exact ⟨rfl, IdMap.contains_iff.2 ⟨u, ht⟩, hresult⟩
    · intro hmoved
      obtain ⟨rfl, -, -⟩ := hmoved
      rfl

/-- The states that a notice has the pool note are those that it stirs, if
they are tracked afterwards. -/
theorem mem_remarks (ht : (v.act (.tell n step)).pool.tracked.contains id = true) :
    id ∈ v.pool.remarks n step v.graph ↔ Stirs v id n step := by
  cases n with
  | added batch => exact mem_remarks_added hs hf ht
  | removed h => exact mem_remarks_removed hf ht
  | moved h => exact mem_remarks_moved

end

-- ======================================================================= runs

/-- A block is touched in a run. -/
def TouchedIn (w : Scene Guided) (as : List Act) (b : BlockNo) : Prop :=
  ∃ pre n step post, as = pre ++ .tell n step :: post ∧ Touches (w.run pre) b n step

/-- A state is stirred in a run, and from then on it is tracked. -/
def StirredIn (w : Scene Guided) (as : List Act) (id : StateNo) : Prop :=
  ∃ pre n step post, as = pre ++ .tell n step :: post ∧ Stirs (w.run pre) id n step ∧
    ∀ mid, mid <+: post →
      ((w.run pre).run (.tell n step :: mid)).pool.tracked.contains id = true

theorem size_le_run (w : Scene Guided) (as : List Act) :
    w.graph.size ≤ (w.run as).graph.size := by
  induction as generalizing w with
  | nil => exact Nat.le_refl _
  | cons a as ih =>
      refine Nat.le_trans ?_ (ih (w.act a))
      cases a with
      | peek => exact Nat.le_refl _
      | tell n step => exact Nat.le_of_eq (alike_tell w.pool n step w.graph).size.symm
      | graph a => exact FlowGraph.size_le_act w.graph a

/-- Where the adviser is not asked, what is noted has been touched, or was
made since the pool looked at the graph last. -/
theorem noted_iff (hw : w.pool.Sound w.graph) {as : List Act} (hnone : w.consultations as = []) :
    (b ∈ noted w as ∨ (w.pool.mark ≤ b ∧ b < (w.run as).graph.size)) ↔
      (w.pool.mark ≤ b ∧ b < (w.run as).graph.size) ∨ TouchedIn w as b := by
  rw [mem_noted]
  constructor
  · intro h
    rcases h with ⟨pre, n, step, post, rfl, hb⟩ | hb
    · obtain htouch | ⟨-, hle, hlt⟩ := mem_notes.1 hb
      · exact Or.inr ⟨pre, n, step, post, rfl, htouch⟩
      · rw [Scene.consultations_append, List.append_eq_nil_iff] at hnone
        have hmark := (keeps_run hw pre hnone.1).1.mark
        have hsize := size_le_run (w.run pre) (.tell n step :: post)
        rw [← Scene.run_append] at hsize
        exact Or.inl ⟨Nat.le_trans hmark hle, Nat.lt_of_lt_of_le hlt hsize⟩
    · exact Or.inl hb
  · intro h
    rcases h with hb | ⟨pre, n, step, post, heq, htouch⟩
    · exact Or.inr hb
    · exact Or.inl ⟨pre, n, step, post, heq, mem_notes.2 (Or.inl htouch)⟩

/-- Only a notice brings in a state. -/
theorem contains_act_of_untold {a : Act} (ha : a.notice? = none) :
    (v.act a).pool.tracked.contains id = v.pool.tracked.contains id := by
  cases a with
  | graph a => rfl
  | tell n step => cases ha
  | peek =>
      show (peek v.graph v.pool).pool.tracked.contains id = _
      obtain ⟨-, o, h⟩ | ⟨-, o, h⟩ := peek_pool v.graph v.pool
      · rw [h]
      · rw [h]
        exact contains_consult v.pool v.graph id

/-- Of the states that are tracked in the end, those are remarked that have
been stirred since they came. -/
theorem remarked_iff (hw : w.pool.Sound w.graph) (hf : w.pool.Forest) {as : List Act}
    (ht : (w.run as).pool.tracked.contains id = true) :
    id ∈ remarked w as ↔ StirredIn w as id := by
  constructor
  · -- from the end, so that a state which comes again is met at its last coming
    induction as using List.reverseRecOn with
    | nil => exact fun h => nomatch h
    | append_singleton as a ih =>
        rw [Scene.run_append] at ht
        have hlast : ∀ {n step}, a = .tell n step → Stirs (w.run as) id n step →
            StirredIn w (as ++ [a]) id := by
          intro n step ha hstirs
          subst ha
          refine ⟨as, n, step, [], rfl, hstirs, fun mid hmid => ?_⟩
          rw [List.prefix_nil.1 hmid]
          exact ht
        rw [remarked_append, List.mem_append]
        cases hold : (w.run as).pool.tracked.contains id with
        | false =>
            intro _
            have hcame : ((w.run as).act a).pool.tracked.contains id = true := ht
            cases a with
            | peek => cases hold.symm.trans ((contains_act_of_untold rfl).symm.trans hcame)
            | graph a => cases hold.symm.trans ((contains_act_of_untold rfl).symm.trans hcame)
            | tell n step => exact hlast rfl (.came hold hcame)
        | true =>
            intro hmem
            rcases hmem with h | h
            · obtain ⟨pre, n, step, post, rfl, hstirs, hstays⟩ := ih hold h
              refine ⟨pre, n, step, post ++ [a], List.append_assoc _ _ _, hstirs,
                fun mid hmid => ?_⟩
              obtain rfl | hmid := List.prefix_concat_iff.1 hmid
              · rw [Scene.run_append] at ht
                rw [← List.cons_append, Scene.run_append]
                exact ht
              · exact hstays mid hmid
            · cases a with
              | peek => cases h
              | graph a => cases h
              | tell n step =>
                  have h : id ∈ (w.run as).pool.remarks n step (w.run as).graph := by
                    simpa [remarked] using h
                  exact hlast rfl ((mem_remarks (sound_run hw as) (hf.run hw as) ht).1 h)
  · intro h
    obtain ⟨pre, n, step, post, heq, hstirs, hstays⟩ := h
    have hafter := hstays [] List.nil_prefix
    exact mem_remarked.2 ⟨pre, n, step, post, heq,
      (mem_remarks (sound_run hw pre) (hf.run hw pre) hafter).2 hstirs⟩

-- ===================================================================== deltas

/-- Each delta of a pool under an oracle that has answered comes after
another question. It lists, in increasing order, the blocks that were made
or touched since then and the tracked states that were stirred since then,
and nothing else. -/
theorem delta_exact (o : Oracle) (before : List Act) {c : Consultation}
    (hok : ∀ x ∈ (opening (.oracle o) .auto).consultations before, x.Answered)
    (hc : (led o before).peek.asked = some c) (hdelta : c.snapshot.extent = .delta) :
    ∃ earlier between, before = earlier ++ [.peek] ++ between ∧
      (led o earlier).peek.asked.isSome = true ∧
      (led o (earlier ++ [.peek])).consultations between = [] ∧
      c.snapshot.blocks.Pairwise (· < ·) ∧
      (∀ b, b ∈ c.snapshot.blocks ↔
        ((led o earlier).graph.size ≤ b ∧ b < (led o before).graph.size) ∨
          TouchedIn (led o (earlier ++ [.peek])) between b) ∧
      (c.snapshot.trails.map Trail.state).Pairwise (· < ·) ∧
      ∀ id, id ∈ c.snapshot.trails.map Trail.state ↔
        (led o before).pool.tracked.contains id = true ∧
          StirredIn (led o (earlier ++ [.peek])) between id := by
  obtain hfirst | ⟨earlier, between, c₀, rfl, hc₀, hnone⟩ :=
    Scene.last_question (opening (.oracle o) .auto) before
  · -- the first question is asked in full
    have hfull : (led o before).pool.nextExtent = .full :=
      (keeps_run (sound_new _ _ _) before hfirst).1.extent
    rw [snapshot_of_asked hc, extent_snapshot] at hdelta
    cases hfull.symm.trans hdelta
  · have hanswered : c₀.Answered :=
      hok c₀ (Scene.mem_consultations.2 ⟨earlier, List.prefix_append _ _, hc₀⟩)
    have hround := round_led hc₀ hanswered hnone hc
    have hsound := sound_led o (earlier ++ [.peek])
    have hpeeked : led o (earlier ++ [.peek]) = (led o earlier).act .peek := led_append o earlier _
    have hlater : led o (earlier ++ [.peek] ++ between) =
        (led o (earlier ++ [.peek])).run between := led_append o _ between
    have hmark : (led o (earlier ++ [.peek])).pool.mark = (led o earlier).graph.size := by
      rw [hpeeked]
      exact (pool_of_answered hc₀ hanswered).2.1
    refine ⟨earlier, between, rfl, Option.isSome_iff_exists.2 ⟨c₀, hc₀⟩, hnone, ?_, fun b => ?_, ?_,
      fun id => ?_⟩
    · rw [snapshot_of_asked hc]
      exact increasing_blocks _ _
    · rw [hround.mem_blocks, ← hpeeked, ← hmark, hlater]
      exact noted_iff hsound hnone
    · rw [snapshot_of_asked hc, states_snapshot (hround.sound_later.recount _)]
      exact (increasing_listedStates _).filter _
    · rw [snapshot_of_asked hc, mem_states_snapshot (hround.sound_later.recount _),
        contains_recount, and_comm]
      refine and_congr_right fun ht => ?_
      rw [hround.mem_states ht, ← hpeeked]
      exact remarked_iff hsound (forest_led o _) (hlater ▸ ht)

/-- A state moves on, the other gets a child and goes, and a method comes
in. -/
def unrest : List Act :=
  [.tell (.moved (standing 0 0 2)) 2, .tell (.added [standing 2 0 0]) 2,
    .tell (.removed (standing 1 0 0)) 3, .graph (.register (looping 1))]

def afterUnrest : Consultation :=
  (led loyal (patrol ++ [.peek] ++ unrest)).peek.asked.get (by decide)

/-- The delta lists the blocks that state 0 has left and come to and those
that are new, and of the states 0 and its child. -/
theorem delta_exact_unrest :
    afterUnrest.snapshot.blocks = [0, 1, 2, 3] ∧
      afterUnrest.snapshot.trails.map Trail.state = [0, 2] ∧
      ∃ earlier between, patrol ++ [.peek] ++ unrest = earlier ++ [.peek] ++ between ∧
        (((led loyal earlier).graph.size ≤ 1 ∧
            1 < (led loyal (patrol ++ [.peek] ++ unrest)).graph.size) ∨
          TouchedIn (led loyal (earlier ++ [.peek])) between 1) ∧
        StirredIn (led loyal (earlier ++ [.peek])) between 2 := by
  have hblocks : afterUnrest.snapshot.blocks = [0, 1, 2, 3] := by decide
  have hstates : afterUnrest.snapshot.trails.map Trail.state = [0, 2] := by decide
  have hasked : (led loyal (patrol ++ [.peek] ++ unrest)).peek.asked = some afterUnrest :=
    (Option.some_get _).symm
  have hok : ∀ x ∈ (opening (.oracle loyal) .auto).consultations (patrol ++ [.peek] ++ unrest),
      x.Answered := by decide
  have hdelta : afterUnrest.snapshot.extent = .delta := by decide
  obtain ⟨earlier, between, heq, hsome, -, -, hlisted, -, hshown⟩ :=
    delta_exact loyal (patrol ++ [Act.peek] ++ unrest) hok hasked hdelta
  refine ⟨hblocks, hstates, earlier, between, heq, (hlisted 1).1 (hblocks ▸ by decide), ?_⟩
  exact ((hshown 2).1 (hstates ▸ by decide)).2

end SymbolicSearch.Guided
