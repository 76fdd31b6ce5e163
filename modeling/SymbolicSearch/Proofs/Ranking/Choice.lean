/-
What a model's answer comes to, whatever the answer is. The scores of a
ranking are sums of rows; the choice is the state with the first best of
them, and there is one just if the scores fit the states and one of the sums
is a number (`choose_cases`, `choiceOf_cases`).

# What is best

A sum is best if it is a number and no other number among the sums exceeds
it, so of several equal ones each is best and the first of them is chosen.
`Leader` is what one pass from left to right keeps to: the best number so
far, and none before it as great.
-/
import Mathlib.Order.Bounds.Basic
import SymbolicSearch.Proofs.Ranking.Retelling

namespace SymbolicSearch

open Binary

-- ================================================================ the order

namespace Binary.Single

/-- The magnitude that unsigned bits stand for. -/
def unitsOf (u : Nat) : Nat :=
  if u / fractionBound = 0 then u % fractionBound
  else (fractionBound + u % fractionBound) <<< (u / fractionBound - 1)

/-- Greater bits stand for greater magnitudes. -/
theorem unitsOf_strictMono : StrictMono unitsOf := by
  refine strictMono_nat_of_lt_succ fun u => ?_
  have hpos : 0 < fractionBound := by decide
  unfold unitsOf
  generalize fractionBound = bound at *
  have hu := Nat.div_add_mod u bound
  have hf := Nat.mod_lt u hpos
  generalize u / bound = e at *
  generalize u % bound = f at *
  subst hu
  by_cases hlast : f + 1 = bound
  · -- the fraction is full, and the next bits begin the next exponent
    have hdiv : (bound * e + f + 1) / bound = e + 1 := by
      rw [Nat.add_assoc, hlast, ← Nat.mul_succ, Nat.mul_div_cancel_left _ hpos]
    have hmod : (bound * e + f + 1) % bound = 0 := by
      rw [Nat.add_assoc, hlast, ← Nat.mul_succ, Nat.mul_mod_right]
    rw [hdiv, hmod, if_neg (Nat.succ_ne_zero e), Nat.add_sub_cancel]
    cases e with
    | zero => simpa using hf
    | succ e =>
        rw [if_neg (Nat.succ_ne_zero e), Nat.add_sub_cancel, Nat.add_zero, Nat.shiftLeft_succ,
          Nat.shiftLeft_eq, Nat.shiftLeft_eq, ← Nat.mul_assoc]
        exact Nat.mul_lt_mul_of_pos_right (by omega) (Nat.two_pow_pos e)
  · have hdiv : (bound * e + f + 1) / bound = e := by
      rw [Nat.add_assoc, Nat.mul_add_div hpos, Nat.div_eq_of_lt (by omega), Nat.add_zero]
    have hmod : (bound * e + f + 1) % bound = f + 1 := by
      rw [Nat.add_assoc, Nat.mul_add_mod, Nat.mod_eq_of_lt (by omega)]
    rw [hdiv, hmod]
    split
    next => exact Nat.lt_succ_self f
    next =>
      rw [Nat.shiftLeft_eq, Nat.shiftLeft_eq]
      exact Nat.mul_lt_mul_of_pos_right (by omega) (Nat.two_pow_pos _)

/-- The rank orders numbers by what they stand for. -/
theorem rank_lt_iff (x y : Single) : x.rank < y.rank ↔ x.signedUnits < y.signedUnits := by
  have hunits : ∀ z : Single, z.units = unitsOf z.unsigned := fun z => rfl
  have hzero : unitsOf 0 = 0 := rfl
  have hlt : ∀ {a b : Nat}, unitsOf a < unitsOf b ↔ a < b := unitsOf_strictMono.lt_iff_lt
  have hx := hlt (a := 0) (b := x.unsigned)
  have hy := hlt (a := 0) (b := y.unsigned)
  have hxy := hlt (a := x.unsigned) (b := y.unsigned)
  have hyx := hlt (a := y.unsigned) (b := x.unsigned)
  unfold rank signedUnits
  rw [hunits, hunits]
  split <;> split <;> omega

end Binary.Single

namespace Ranking

-- ================================================================= the best

/-- At this place stands a number which no number of the list exceeds. -/
def IsBest (l : List Single) (i : Nat) : Prop :=
  ∃ x, l[i]? = some x ∧ x.isNaN = false ∧ ∀ y ∈ l, y.isNaN = false → ¬ x.rank < y.rank

/-- A number of a list that none before it reaches and none after it
exceeds. -/
structure Leader (l : List Single) (x : Single) (i : Nat) : Prop where
  place : l[i]? = some x
  number : x.isNaN = false
  top : ∀ y ∈ l, y.isNaN = false → y.rank ≤ x.rank
  first : ∀ j y, j < i → l[j]? = some y → y.isNaN = false → y.rank < x.rank

/-- The best number so far after one number more. -/
def better (best : Option (Single × Nat)) (e : Single × Nat) : Option (Single × Nat) :=
  if e.1.isNaN then best
  else
    match best with
    | none => some e
    | some b => if b.1.rank < e.1.rank then some e else best

theorem better_of_isNaN {x : Single} (hx : x.isNaN = true) (best : Option (Single × Nat))
    (i : Nat) : better best (x, i) = best := if_pos hx

theorem better_none {x : Single} (hx : x.isNaN = false) (i : Nat) :
    better none (x, i) = some (x, i) := by
  rw [better.eq_def, if_neg (by rw [hx]; exact Bool.false_ne_true)]

theorem better_some {x : Single} (hx : x.isNaN = false) (y : Single) (i j : Nat) :
    better (some (y, j)) (x, i) = if y.rank < x.rank then some (x, i) else some (y, j) := by
  rw [better.eq_def, if_neg (by rw [hx]; exact Bool.false_ne_true)]

/-- The first best number of a list with its place. -/
def lead (l : List Single) : Option (Single × Nat) := l.zipIdx.foldl better none

theorem firstBest_eq (l : List Single) : firstBest l = (lead l).map Prod.snd := rfl

theorem lead_concat (l : List Single) (x : Single) :
    lead (l ++ [x]) = better (lead l) (x, l.length) := by
  rw [lead, List.zipIdx_append, List.foldl_append, Nat.zero_add]
  rfl

theorem Leader.isLeast {l : List Single} {x : Single} {i : Nat} (h : Leader l x i) :
    IsLeast {j | IsBest l j} i := by
  refine ⟨⟨x, h.place, h.number, fun y hy hn => Int.not_lt.2 (h.top y hy hn)⟩, ?_⟩
  rintro j ⟨y, hy, hn, hbest⟩
  refine Nat.le_of_not_lt fun hlt => ?_
  exact hbest x (List.mem_of_getElem? h.place) h.number (h.first j y hlt hy hn)

/-- A number that does not exceed the leader, or what is not a number,
leaves it in the lead. -/
theorem Leader.concat {l : List Single} {x : Single} {i : Nat} (h : Leader l x i) {y : Single}
    (hy : y.isNaN = false → y.rank ≤ x.rank) : Leader (l ++ [y]) x i := by
  have hi := (List.getElem?_eq_some_iff.1 h.place).1
  refine ⟨by rw [List.getElem?_append_left hi, h.place], h.number, fun z hz hn => ?_,
    fun j z hj hz hn => ?_⟩
  · rcases List.mem_append.1 hz with hz | hz
    · exact h.top z hz hn
    · obtain rfl := List.mem_singleton.1 hz
      exact hy hn
  · rw [List.getElem?_append_left (Nat.lt_trans hj hi)] at hz
    exact h.first j z hj hz hn

/-- A number that exceeds all before it takes the lead. -/
theorem leader_concat {l : List Single} {x : Single} (hx : x.isNaN = false)
    (h : ∀ y ∈ l, y.isNaN = false → y.rank < x.rank) : Leader (l ++ [x]) x l.length := by
  refine ⟨List.getElem?_concat_length, hx, fun y hy hn => ?_, fun j y hj hy hn => ?_⟩
  · rcases List.mem_append.1 hy with hy | hy
    · exact Int.le_of_lt (h y hy hn)
    · exact Int.le_of_eq (congrArg Single.rank (List.mem_singleton.1 hy))
  · rw [List.getElem?_append_left hj] at hy
    exact h y (List.mem_of_getElem? hy) hn

/-- One pass finds the leader, or there is no number. -/
theorem lead_cases (l : List Single) :
    (lead l = none ∧ ∀ x ∈ l, x.isNaN = true) ∨ ∃ x i, lead l = some (x, i) ∧ Leader l x i := by
  induction l using List.reverseRecOn with
  | nil => exact Or.inl ⟨rfl, fun x hx => absurd hx List.not_mem_nil⟩
  | append_singleton l y ih =>
      rw [lead_concat]
      cases hy : y.isNaN with
      | true =>
          rw [better_of_isNaN hy]
          obtain ⟨hlead, hall⟩ | ⟨x, i, hlead, h⟩ := ih
          · exact Or.inl ⟨hlead, List.forall_mem_append.2 ⟨hall, List.forall_mem_singleton.2 hy⟩⟩
          · refine Or.inr ⟨x, i, hlead, h.concat fun hn => ?_⟩
            exact absurd (hy.symm.trans hn) Bool.noConfusion
      | false =>
          right
          obtain ⟨hlead, hall⟩ | ⟨x, i, hlead, h⟩ := ih
          · rw [hlead, better_none hy]
            refine ⟨y, l.length, rfl, leader_concat hy fun z hz hn => ?_⟩
            exact absurd ((hall z hz).symm.trans hn) Bool.noConfusion
          · rw [hlead, better_some hy]
            by_cases hlt : x.rank < y.rank
            · refine ⟨y, l.length, if_pos hlt, leader_concat hy fun z hz hn => ?_⟩
              exact Int.lt_of_le_of_lt (h.top z hz hn) hlt
            · exact ⟨x, i, if_neg hlt, h.concat fun _ => Int.not_lt.1 hlt⟩

theorem firstBest_eq_some {l : List Single} {i : Nat} :
    firstBest l = some i ↔ IsLeast {j | IsBest l j} i := by
  rw [firstBest_eq]
  obtain ⟨hlead, hall⟩ | ⟨x, k, hlead, h⟩ := lead_cases l
  · rw [hlead]
    refine iff_of_false (Option.some_ne_none i).symm fun hi => ?_
    obtain ⟨y, hy, hn, -⟩ := hi.1
    rw [hall y (List.mem_of_getElem? hy)] at hn
    cases hn
  · rw [hlead]
    constructor
    · intro heq
      obtain rfl := Option.some.inj heq
      exact h.isLeast
    · intro hi
      exact congrArg some (h.isLeast.unique hi)

theorem firstBest_eq_none {l : List Single} : firstBest l = none ↔ ∀ x ∈ l, x.isNaN = true := by
  rw [firstBest_eq, Option.map_eq_none_iff]
  obtain ⟨hlead, hall⟩ | ⟨x, k, hlead, h⟩ := lead_cases l
  · exact iff_of_true hlead hall
  · rw [hlead]
    refine iff_of_false (Option.some_ne_none _) fun hall => ?_
    have hn := h.number
    rw [hall x (List.mem_of_getElem? h.place)] at hn
    cases hn

-- ================================================================ the scores

/-- A tensor of floats with one row for each of `n` states whose values fill
its shape; the sums of its rows, each from left to right. -/
def Scores (t : Tensor) (n : Nat) (sums : List Single) : Prop :=
  ∃ dims values, t = .floats (n :: dims) values ∧
    values.length = (n :: dims).foldl (· * ·) 1 ∧
    ∃ rows : List (List Single), rows.flatten = values ∧ rows.length = n ∧
      (∀ row ∈ rows, row.length = dims.foldl (· * ·) 1) ∧ sums = rows.map Single.sum

/-- A product with a factor in front. -/
theorem foldl_mul_eq (l : List Nat) (a : Nat) :
    l.foldl (· * ·) a = a * l.foldl (· * ·) 1 := by
  induction l generalizing a with
  | nil => exact (Nat.mul_one a).symm
  | cons b l ih =>
      rw [List.foldl_cons, ih (a * b), List.foldl_cons, ih (1 * b), Nat.one_mul, Nat.mul_assoc]

theorem product_cons (n : Nat) (dims : List Nat) :
    (n :: dims).foldl (· * ·) 1 = n * dims.foldl (· * ·) 1 := by
  rw [List.foldl_cons, foldl_mul_eq, Nat.one_mul]

/-- Values in the right number can be cut into rows. -/
theorem exists_rows {width : Nat} (n : Nat) {values : List Single}
    (h : values.length = n * width) :
    ∃ rows : List (List Single), rows.flatten = values ∧ rows.length = n ∧
      ∀ row ∈ rows, row.length = width := by
  induction n generalizing values with
  | zero =>
      rw [Nat.zero_mul] at h
      refine ⟨[], (List.length_eq_zero_iff.1 h).symm, rfl, fun row hrow => ?_⟩
      exact absurd hrow List.not_mem_nil
  | succ n ih =>
      rw [Nat.succ_mul] at h
      have hrest : (values.drop width).length = n * width := by
        rw [List.length_drop, h, Nat.add_sub_cancel]
      obtain ⟨rows, hflat, hcount, hwidth⟩ := ih hrest
      refine ⟨values.take width :: rows, ?_, congrArg (· + 1) hcount, ?_⟩
      · rw [List.flatten_cons, hflat, List.take_append_drop]
      · refine List.forall_mem_cons.2 ⟨?_, hwidth⟩
        exact List.length_take_of_le (h ▸ Nat.le_add_left width _)

/-- The scores of a tensor are those that are summed. -/
theorem Scores.sums_eq {n : Nat} {dims : List Nat} {values sums : List Single}
    (h : Scores (.floats (n :: dims) values) n sums) :
    values.length = n * dims.foldl (· * ·) 1 ∧
      sums = (rowsOf n (dims.foldl (· * ·) 1) values).map Single.sum := by
  obtain ⟨dims, values, heq, hlength, rows, rfl, rfl, hwidth, rfl⟩ := h
  obtain ⟨hdims, rfl⟩ := Tensor.floats.inj heq
  obtain rfl := (List.cons.inj hdims).2
  obtain ⟨-, hrows⟩ := Tensor.rowsOf_flatten hwidth
  exact ⟨hlength.trans (product_cons _ _), by rw [hrows]⟩

theorem scores_of_length {n : Nat} {dims : List Nat} {values : List Single}
    (h : values.length = n * dims.foldl (· * ·) 1) :
    Scores (.floats (n :: dims) values) n
      ((rowsOf n (dims.foldl (· * ·) 1) values).map Single.sum) := by
  obtain ⟨rows, rfl, rfl, hwidth⟩ := exists_rows n h
  refine ⟨dims, _, rfl, h.trans (product_cons _ _).symm, rows, rfl, rfl, hwidth, ?_⟩
  rw [(Tensor.rowsOf_flatten hwidth).2]

/-- A tensor has scores just if it holds floats in the given number of rows
and its values fill its shape. -/
theorem exists_scores {t : Tensor} {n : Nat} :
    (∃ sums, Scores t n sums) ↔ ∃ dims values, t = .floats (n :: dims) values ∧
      values.length = (n :: dims).foldl (· * ·) 1 := by
  constructor
  · rintro ⟨sums, dims, values, ht, hlength, -⟩
    exact ⟨dims, values, ht, hlength⟩
  · rintro ⟨dims, values, rfl, hlength⟩
    exact ⟨_, scores_of_length (hlength.trans (product_cons n dims))⟩

/-- There is one score for each state. -/
theorem Scores.length_eq {t : Tensor} {n : Nat} {sums : List Single} (h : Scores t n sums) :
    sums.length = n := by
  obtain ⟨dims, values, -, -, rows, -, hcount, -, rfl⟩ := h
  rw [List.length_map, hcount]

/-- A tensor has one list of scores at most. -/
theorem Scores.unique {t : Tensor} {n : Nat} {sums sums' : List Single} (h : Scores t n sums)
    (h' : Scores t n sums') : sums = sums' := by
  obtain ⟨dims, values, rfl, -⟩ := id h
  rw [h.sums_eq.2, h'.sums_eq.2]

-- ================================================================ the choice

/-- With scores for the states, the first best of them decides. -/
theorem choose_of_scores {ids : List StateNo} {t : Tensor} {sums : List Single}
    (h : Scores t ids.length sums) :
    choose ids t =
      ((firstBest sums).bind (ids[·]?)).elim (.error (.breach .noScores)) Except.ok := by
  obtain ⟨dims, values, rfl, -⟩ := id h
  obtain ⟨hlength, rfl⟩ := h.sums_eq
  rw [choose, List.headD_cons, List.tail_cons, if_neg (not_not.2 rfl), if_neg (not_not.2 hlength)]
  split
  next hid => rw [hid, Option.elim_some]
  next hid => rw [hid, Option.elim_none]

/-- Without them, the adviser has broken its word. -/
theorem choose_of_not_scores {ids : List StateNo} {t : Tensor}
    (h : ∀ sums, ¬ Scores t ids.length sums) :
    ∃ cause, choose ids t = .error (.breach cause) ∧ ∀ id, cause ≠ .untracked id := by
  cases t with
  | ints shape values => exact ⟨.scoresNotFloat, rfl, fun id h => Breach.noConfusion h⟩
  | floats shape values =>
      rw [choose]
      by_cases hrows : shape.headD 0 = ids.length
      · rw [if_neg (not_not.2 hrows)]
        by_cases hlength : values.length = shape.headD 0 * shape.tail.foldl (· * ·) 1
        · rw [if_neg (not_not.2 hlength)]
          cases shape with
          -- a scalar has no rows, and there are no states
          | nil => exact ⟨.noScores, rfl, fun id h => Breach.noConfusion h⟩
          | cons n dims =>
              obtain rfl : n = ids.length := hrows
              exact absurd (scores_of_length hlength) (h _)
        · rw [if_pos hlength]
          exact ⟨_, rfl, fun id h => Breach.noConfusion h⟩
      · rw [if_pos hrows]
        exact ⟨_, rfl, fun id h => Breach.noConfusion h⟩

/-- Some state has the first best score, or the adviser has broken its word:
the tensor does not have scores for the states, or none of them is a
number. -/
theorem choose_cases (ids : List StateNo) (t : Tensor) :
    (∃ sums i id, Scores t ids.length sums ∧ IsLeast {j | IsBest sums j} i ∧ ids[i]? = some id ∧
        choose ids t = .ok id) ∨
      ((∀ sums, Scores t ids.length sums → ∀ x ∈ sums, x.isNaN = true) ∧
        ∃ cause, choose ids t = .error (.breach cause) ∧ ∀ id, cause ≠ .untracked id) := by
  by_cases hscores : ∃ sums, Scores t ids.length sums
  · obtain ⟨sums, h⟩ := hscores
    cases hbest : firstBest sums with
    | none =>
        refine Or.inr ⟨fun sums' h' => ?_, .noScores, ?_, fun id h => Breach.noConfusion h⟩
        · rw [h'.unique h]
          exact firstBest_eq_none.1 hbest
        · rw [choose_of_scores h, hbest, Option.bind_none, Option.elim_none]
    | some i =>
        have hleast := firstBest_eq_some.1 hbest
        obtain ⟨x, hx, -⟩ := id hleast.1
        have hi : i < ids.length := h.length_eq ▸ (List.getElem?_eq_some_iff.1 hx).1
        have hid := List.getElem?_eq_getElem hi
        refine Or.inl ⟨sums, i, ids[i], h, hleast, hid, ?_⟩
        rw [choose_of_scores h, hbest, Option.bind_some, hid, Option.elim_some]
  · have hnone := not_exists.1 hscores
    exact Or.inr ⟨fun sums h => absurd h (hnone sums), choose_of_not_scores hnone⟩

end Ranking

-- ================================================================= a model

namespace Adviser

open Ranking

/-- A model's run came to scores for `n` states. -/
def Scored (answer : Except String NamedTensors) (n : Nat) (sums : List Single) : Prop :=
  ∃ outputs t, answer = .ok outputs ∧ outputs.lookup scoresName = some t ∧ Scores t n sums

/-- A run comes to one list of scores at most. -/
theorem Scored.unique {answer : Except String NamedTensors} {n : Nat} {sums sums' : List Single}
    (h : Scored answer n sums) (h' : Scored answer n sums') : sums = sums' := by
  obtain ⟨outputs, t, rfl, ht, hscores⟩ := h
  obtain ⟨outputs', t', heq, ht', hscores'⟩ := h'
  obtain rfl := Except.ok.inj heq
  obtain rfl := Option.some.inj (ht.symm.trans ht')
  exact hscores.unique hscores'

/-- A run fails, or some state has the first best score, or the model has
broken its word. -/
theorem choiceOf_cases (ids : List StateNo) (answer : Except String NamedTensors) :
    (∃ reason, answer = .error reason ∧ choiceOf ids answer = .error (.adviserFailed reason)) ∨
      (∃ sums i id, Scored answer ids.length sums ∧ IsLeast {j | IsBest sums j} i ∧
        ids[i]? = some id ∧ choiceOf ids answer = .ok id) ∨
      ((∃ outputs, answer = .ok outputs) ∧
        (∀ sums, Scored answer ids.length sums → ∀ x ∈ sums, x.isNaN = true) ∧
        ∃ cause, choiceOf ids answer = .error (.breach cause) ∧ ∀ id, cause ≠ .untracked id) := by
  cases answer with
  | error reason => exact Or.inl ⟨reason, rfl, rfl⟩
  | ok outputs =>
      right
      cases hout : outputs.lookup scoresName with
      | none =>
          refine Or.inr ⟨⟨outputs, rfl⟩, ?_, .noOutput scoresName, by rw [choiceOf, hout],
            fun id h => Breach.noConfusion h⟩
          rintro sums ⟨_, t, heq, ht, -⟩
          obtain rfl := Except.ok.inj heq
          rw [hout] at ht
          cases ht
      | some t =>
          have hchoice : choiceOf ids (.ok outputs) = choose ids t := by rw [choiceOf, hout]
          rw [hchoice]
          obtain ⟨sums, i, id, h, hleast, hid, hok⟩ | ⟨hall, herror⟩ := choose_cases ids t
          · exact Or.inl ⟨sums, i, id, ⟨outputs, t, rfl, hout, h⟩, hleast, hid, hok⟩
          · refine Or.inr ⟨⟨outputs, rfl⟩, ?_, herror⟩
            rintro sums ⟨_, t', heq, ht, h⟩
            obtain rfl := Except.ok.inj heq
            obtain rfl := Option.some.inj (hout.symm.trans ht)
            exact hall sums h

/-- An adviser chooses, fails, or breaks its word; but it does not say of
itself that it has chosen a state which is not tracked. -/
theorem answer_cases (a : Adviser) (s : Snapshot) :
    (∃ id, (a.consult s).1.answer = .ok id) ∨
      (∃ reason, (a.consult s).1.answer = .error (.adviserFailed reason)) ∨
      ∃ cause, (a.consult s).1.answer = .error (.breach cause) ∧ ∀ id, cause ≠ .untracked id := by
  have hmapped : ∀ {ε : Type} (f : ε → String) (r : Except ε StateNo),
      (∃ id, r.mapError (fun e => Fault.adviserFailed (f e)) = .ok id) ∨
        ∃ reason, r.mapError (fun e => Fault.adviserFailed (f e)) =
          .error (.adviserFailed reason) := by
    intro ε f r
    cases r with
    | ok id => exact Or.inl ⟨id, rfl⟩
    | error e => exact Or.inr ⟨f e, rfl⟩
  cases a with
  | model m =>
      obtain ⟨reason, -, h⟩ | ⟨sums, i, id, -, -, -, h⟩ | ⟨-, -, cause, h⟩ :=
        choiceOf_cases (ofSnapshot s).ids (m.run ((ofSnapshot s).inputs :: m.told))
      · exact Or.inr (Or.inl ⟨reason, h⟩)
      · exact Or.inl ⟨id, h⟩
      · exact Or.inr (Or.inr ⟨cause, h⟩)
  | oracle o =>
      rw [← or_assoc]
      left
      cases o with
      | live reply told => exact hmapped id _
      | remote d => exact hmapped Lapse.message _

end Adviser

end SymbolicSearch
