/-
Finite tables with numbers for keys, kept as their entries in increasing
order of key. As for `IdSet`, the order is part of the type: listing the
entries is listing them sorted by key, and two tables are equal as soon
as every look-up agrees (`IdMap.ext_find?`).

Each operation is described by what it does to a look-up; nothing else
about a table needs to be unfolded.
-/
import SymbolicSearch.IdSet

namespace SymbolicSearch

/-- A finite table from numbers to values, listed by increasing key. -/
structure IdMap (α : Type) where
  entries : List (Nat × α)
  increasing : entries.Pairwise (fun a b => a.1 < b.1)
deriving DecidableEq

namespace IdMap

variable {α β : Type}

instance : EmptyCollection (IdMap α) := ⟨⟨[], .nil⟩⟩

instance : Inhabited (IdMap α) := ⟨∅⟩

/-- The value stored under a key. -/
def find? (m : IdMap α) (k : Nat) : Option α := m.entries.lookup k

def contains (m : IdMap α) (k : Nat) : Bool := (m.find? k).isSome

/-- The keys, in increasing order. -/
def keys (m : IdMap α) : List Nat := m.entries.map Prod.fst

/-- The values, in the order of their keys. -/
def values (m : IdMap α) : List α := m.entries.map Prod.snd

def size (m : IdMap α) : Nat := m.entries.length

def isEmpty (m : IdMap α) : Bool := m.entries.isEmpty

@[simp] theorem find?_empty (k : Nat) : (∅ : IdMap α).find? k = none := rfl

-- ============================================== look-up and entries

/-- The first entry answers for its own key and for no other. -/
private theorem lookup_cons_eq {k k' : Nat} {v : α} {l : List (Nat × α)} :
    ((k', v) :: l).lookup k = if k = k' then some v else l.lookup k := by
  rw [List.lookup_cons]
  by_cases h : k = k'
  · subst h; simp
  · rw [beq_false_of_ne h, if_neg h]

/-- In a list with increasing keys, a key is found with the value it is
listed with. -/
private theorem lookup_eq_some {l : List (Nat × α)}
    (h : l.Pairwise (fun a b => a.1 < b.1)) {k : Nat} {v : α} :
    l.lookup k = some v ↔ (k, v) ∈ l := by
  induction l with
  | nil => simp
  | cons e rest ih =>
    obtain ⟨k', v'⟩ := e
    have hc := List.pairwise_cons.1 h
    rw [lookup_cons_eq]
    by_cases hk : k = k'
    · subst hk
      simp only [if_true, Option.some.injEq, List.mem_cons, Prod.mk.injEq, true_and]
      constructor
      · intro hv; exact Or.inl hv.symm
      · intro h
        rcases h with hv | hmem
        · exact hv.symm
        · exact absurd (hc.1 _ hmem) (Nat.lt_irrefl k)
    · rw [if_neg hk, ih hc.2]
      simp [hk]

theorem find?_eq_some {m : IdMap α} {k : Nat} {v : α} :
    m.find? k = some v ↔ (k, v) ∈ m.entries :=
  lookup_eq_some m.increasing

theorem contains_iff {m : IdMap α} {k : Nat} : m.contains k = true ↔ ∃ v, m.find? k = some v :=
  Option.isSome_iff_exists

theorem contains_eq_false {m : IdMap α} {k : Nat} : m.contains k = false ↔ m.find? k = none := by
  rw [contains]
  cases m.find? k <;> simp

theorem mem_values {m : IdMap α} {v : α} : v ∈ m.values ↔ ∃ k, m.find? k = some v := by
  rw [values, List.mem_map]
  constructor
  · intro h
    obtain ⟨⟨k, v'⟩, hmem, rfl⟩ := h
    exact ⟨k, find?_eq_some.2 hmem⟩
  · intro h
    obtain ⟨k, hk⟩ := h
    exact ⟨(k, v), find?_eq_some.1 hk, rfl⟩

theorem mem_keys {m : IdMap α} {k : Nat} : k ∈ m.keys ↔ m.contains k = true := by
  rw [contains, Option.isSome_iff_exists, keys, List.mem_map]
  constructor
  · intro h
    obtain ⟨⟨k', v⟩, hmem, rfl⟩ := h
    exact ⟨v, find?_eq_some.2 hmem⟩
  · intro h
    obtain ⟨v, hv⟩ := h
    exact ⟨(k, v), find?_eq_some.1 hv, rfl⟩

theorem keys_increasing (m : IdMap α) : m.keys.Pairwise (· < ·) :=
  List.pairwise_map.2 m.increasing

/-- The keys as a set. -/
def keySet (m : IdMap α) : IdSet := ⟨m.keys, m.keys_increasing⟩

/-- A table is determined by its look-ups. -/
theorem ext_find? {m n : IdMap α} (h : ∀ k, m.find? k = n.find? k) : m = n := by
  cases m with | mk l hl =>
  cases n with | mk l' hl' =>
  have hne : ∀ {a b : Nat × α}, a.1 < b.1 → a ≠ b :=
    fun hab heq => Nat.ne_of_lt hab (congrArg Prod.fst heq)
  have hperm : l.Perm l' :=
    (List.perm_ext_iff_of_nodup (hl.imp hne) (hl'.imp hne)).2 fun ⟨k, v⟩ => by
      rw [← lookup_eq_some hl, ← lookup_eq_some hl']
      exact iff_of_eq (congrArg (· = some v) (h k))
  obtain rfl : l = l' := hperm.eq_of_pairwise
    (fun a b _ _ hab hba => absurd (Nat.lt_trans hab hba) (Nat.lt_irrefl a.1)) hl hl'
  rfl

-- ============================================== insertion

/-- Puts an entry at its place, over an entry with the same key. -/
def place (k : Nat) (v : α) : List (Nat × α) → List (Nat × α)
  | [] => [(k, v)]
  | e :: rest =>
    if k < e.1 then (k, v) :: e :: rest
    else if k = e.1 then (k, v) :: rest
    else e :: place k v rest

private theorem key_of_mem_place {k : Nat} {v : α} {l : List (Nat × α)}
    {e : Nat × α} (h : e ∈ place k v l) : e.1 = k ∨ e ∈ l := by
  induction l with
  | nil => simp only [place, List.mem_singleton] at h; exact Or.inl (by rw [h])
  | cons c rest ih =>
    unfold place at h
    split at h
    · rcases List.mem_cons.1 h with rfl | h
      · exact Or.inl rfl
      · exact Or.inr h
    · split at h
      · rcases List.mem_cons.1 h with rfl | h
        · exact Or.inl rfl
        · exact Or.inr (List.mem_cons_of_mem _ h)
      · rcases List.mem_cons.1 h with rfl | h
        · exact Or.inr List.mem_cons_self
        · exact (ih h).imp_right (List.mem_cons_of_mem _)

theorem place_increasing {k : Nat} {v : α} {l : List (Nat × α)}
    (h : l.Pairwise (fun a b => a.1 < b.1)) :
    (place k v l).Pairwise (fun a b => a.1 < b.1) := by
  induction l with
  | nil => simp [place]
  | cons c rest ih =>
    have hc := List.pairwise_cons.1 h
    unfold place
    split
    · next hlt =>
      refine List.pairwise_cons.2 ⟨fun b hb => ?_, h⟩
      rcases List.mem_cons.1 hb with rfl | hb
      · exact hlt
      · exact Nat.lt_trans hlt (hc.1 b hb)
    · split
      · next heq =>
        exact List.pairwise_cons.2 ⟨fun b hb => heq ▸ hc.1 b hb, hc.2⟩
      · refine List.pairwise_cons.2 ⟨fun b hb => ?_, ih hc.2⟩
        rcases key_of_mem_place hb with hb | hb
        · omega
        · exact hc.1 b hb

def insert (m : IdMap α) (k : Nat) (v : α) : IdMap α :=
  ⟨place k v m.entries, place_increasing m.increasing⟩

private theorem lookup_place {k j : Nat} {v : α} {l : List (Nat × α)} :
    (place k v l).lookup j = if j = k then some v else l.lookup j := by
  induction l with
  | nil => by_cases h : j = k <;> simp [place, h]
  | cons c rest ih =>
    obtain ⟨k', v'⟩ := c
    unfold place
    split
    · rw [lookup_cons_eq]
    · split
      · next heq =>
        simp only at heq
        subst heq
        rw [lookup_cons_eq, lookup_cons_eq]
        by_cases h : j = k <;> simp [h]
      · next hne =>
        simp only at hne
        rw [lookup_cons_eq, lookup_cons_eq, ih]
        by_cases h : j = k
        · subst h; simp [hne]
        · simp [h]

@[simp] theorem find?_insert {m : IdMap α} {k j : Nat} {v : α} :
    (m.insert k v).find? j = if j = k then some v else m.find? j := lookup_place

-- ============================================== removal, change

def erase (m : IdMap α) (k : Nat) : IdMap α :=
  ⟨m.entries.filter (·.1 ≠ k), m.increasing.filter _⟩

/-- The table with every value replaced by a function of key and value. -/
def map (f : Nat → α → β) (m : IdMap α) : IdMap β :=
  ⟨m.entries.map fun e => (e.1, f e.1 e.2), List.pairwise_map.2 m.increasing⟩

/-- The table with the value under one key, if there is one, changed. -/
def modify (m : IdMap α) (k : Nat) (f : α → α) : IdMap α :=
  m.map fun j v => if j = k then f v else v

@[simp] theorem find?_erase {m : IdMap α} {k j : Nat} :
    (m.erase k).find? j = if j = k then none else m.find? j := by
  apply Option.ext
  intro v
  rw [find?_eq_some]
  show (j, v) ∈ m.entries.filter (·.1 ≠ k) ↔ _
  by_cases h : j = k <;> simp [List.mem_filter, h, find?_eq_some]

@[simp] theorem find?_map {f : Nat → α → β} {m : IdMap α} {j : Nat} :
    (m.map f).find? j = (m.find? j).map (f j) := by
  show (m.entries.map _).lookup j = (m.entries.lookup j).map (f j)
  induction m.entries with
  | nil => rfl
  | cons e rest ih =>
    obtain ⟨k', v'⟩ := e
    rw [List.map_cons, lookup_cons_eq, lookup_cons_eq, ih]
    by_cases h : j = k'
    · subst h; simp
    · simp [h]

@[simp] theorem find?_modify {m : IdMap α} {k j : Nat} {f : α → α} :
    (m.modify k f).find? j = if j = k then (m.find? j).map f else m.find? j := by
  rw [modify, find?_map]
  by_cases h : j = k <;> simp [h]

end IdMap

end SymbolicSearch
