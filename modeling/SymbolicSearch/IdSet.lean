/-
Finite sets of numbers, kept as their members in increasing order. The
numbers are those of states, blocks and methods, which are small and
handed out in order, so an insertion usually meets its place at once and
the list needs no balancing.

The order is a field of the type, so a set has one representation: two
sets are equal as soon as they have the same members (`IdSet.ext_mem`),
and listing a set is already listing it sorted and without repetition.
-/
namespace SymbolicSearch

/-- A finite set of numbers, listed in increasing order. -/
structure IdSet where
  toList : List Nat
  increasing : toList.Pairwise (· < ·)
deriving DecidableEq

namespace IdSet

instance : EmptyCollection IdSet := ⟨⟨[], .nil⟩⟩

instance : Inhabited IdSet := ⟨∅⟩

instance : Membership Nat IdSet := ⟨fun s a => a ∈ s.toList⟩

instance (a : Nat) (s : IdSet) : Decidable (a ∈ s) :=
  inferInstanceAs (Decidable (a ∈ s.toList))

theorem mem_toList {a : Nat} {s : IdSet} : a ∈ s.toList ↔ a ∈ s := Iff.rfl

@[simp] theorem toList_empty : (∅ : IdSet).toList = [] := rfl

@[simp] theorem not_mem_empty (a : Nat) : ¬ a ∈ (∅ : IdSet) := List.not_mem_nil

-- ============================================== one representation

/-- Increasing lists with the same members are the same list. -/
private theorem eq_of_increasing {l₁ l₂ : List Nat}
    (h₁ : l₁.Pairwise (· < ·)) (h₂ : l₂.Pairwise (· < ·))
    (hmem : ∀ a, a ∈ l₁ ↔ a ∈ l₂) : l₁ = l₂ := by
  have hperm : l₁.Perm l₂ :=
    (List.perm_ext_iff_of_nodup (h₁.imp Nat.ne_of_lt) (h₂.imp Nat.ne_of_lt)).2 hmem
  exact hperm.eq_of_pairwise (fun a b _ _ hab hba => absurd (Nat.lt_trans hab hba) (Nat.lt_irrefl a))
    h₁ h₂

/-- A set is determined by its members. -/
theorem ext_mem {s t : IdSet} (h : ∀ a, a ∈ s ↔ a ∈ t) : s = t := by
  cases s with | mk l hl =>
  cases t with | mk m hm =>
  obtain rfl : l = m := eq_of_increasing hl hm h
  rfl

-- ============================================== insertion, removal

/-- Puts a number at its place in an increasing list. -/
def place (a : Nat) : List Nat → List Nat
  | [] => [a]
  | b :: rest =>
    if a < b then a :: b :: rest
    else if a = b then b :: rest
    else b :: place a rest

theorem mem_place {a b : Nat} {l : List Nat} :
    b ∈ place a l ↔ b = a ∨ b ∈ l := by
  induction l with
  | nil => simp [place]
  | cons c rest ih =>
    unfold place
    split
    · simp
    · split
      · next h => subst h; simp
      · simp only [List.mem_cons, ih]
        exact or_left_comm

theorem place_increasing {a : Nat} {l : List Nat}
    (h : l.Pairwise (· < ·)) : (place a l).Pairwise (· < ·) := by
  induction l with
  | nil => simp [place]
  | cons c rest ih =>
    have hc := List.pairwise_cons.1 h
    unfold place
    split
    · next hlt =>
      refine List.pairwise_cons.2 ⟨fun b hb => ?_, h⟩
      rcases List.mem_cons.1 hb with rfl | hb
      · exact hlt
      · exact Nat.lt_trans hlt (hc.1 b hb)
    · split
      · exact h
      · refine List.pairwise_cons.2 ⟨fun b hb => ?_, ih hc.2⟩
        rcases mem_place.1 hb with rfl | hb
        · omega
        · exact hc.1 b hb

def insert (s : IdSet) (a : Nat) : IdSet := ⟨place a s.toList, place_increasing s.increasing⟩

def erase (s : IdSet) (a : Nat) : IdSet :=
  ⟨s.toList.filter (· ≠ a), s.increasing.filter _⟩

/-- The set with every number of the list put in. The list is read from
its end, so an increasing list is inserted front first and each of its
numbers lands at the head. -/
def insertAll (s : IdSet) (l : List Nat) : IdSet := l.foldr (fun a t => t.insert a) s

def ofList (l : List Nat) : IdSet := insertAll ∅ l

def isEmpty (s : IdSet) : Bool := s.toList.isEmpty

def size (s : IdSet) : Nat := s.toList.length

@[simp] theorem mem_insert {a b : Nat} {s : IdSet} :
    b ∈ s.insert a ↔ b = a ∨ b ∈ s := mem_place

@[simp] theorem mem_erase {a b : Nat} {s : IdSet} :
    b ∈ s.erase a ↔ b ∈ s ∧ b ≠ a := by
  show b ∈ s.toList.filter (· ≠ a) ↔ _
  rw [List.mem_filter, mem_toList, decide_eq_true_eq]

@[simp] theorem mem_insertAll {b : Nat} {s : IdSet} {l : List Nat} :
    b ∈ s.insertAll l ↔ b ∈ l ∨ b ∈ s := by
  induction l with
  | nil => simp [insertAll]
  | cons a rest ih =>
    show b ∈ (s.insertAll rest).insert a ↔ _
    rw [mem_insert, ih, List.mem_cons, or_assoc]

@[simp] theorem mem_ofList {b : Nat} {l : List Nat} : b ∈ ofList l ↔ b ∈ l := by
  simp [ofList]

/-- Listing a set and collecting the list gives the set back. -/
theorem ofList_toList (s : IdSet) : ofList s.toList = s :=
  ext_mem fun a => by rw [mem_ofList, mem_toList]

end IdSet

end SymbolicSearch
