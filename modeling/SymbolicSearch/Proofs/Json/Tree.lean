/-
Values read back from their texts. The tokens of a value are read as that
value (`ofTokens?_tokens`), so a text of them, whatever blanks it has, is
parsed as the value (`parse?_of_spaced`).

# The order of members

`Reordered` relates a value to every one that has the members of its objects
in some other order, at any depth. What a codec writes and what it has to
understand are related by it.
-/
import Mathlib.Data.List.Forall2
import SymbolicSearch.Json.Tree
import SymbolicSearch.Proofs.Json.Cut

namespace SymbolicSearch.Json

namespace Reading

-- ================================================================ read back

/-- The tokens of a text, one after the other. -/
def read (r : Reading) (ts : List Token) : Option Reading := ts.foldlM step r

theorem read_cons (r : Reading) (t : Token) (ts : List Token) :
    r.read (t :: ts) = (r.step t).bind (·.read ts) := List.foldlM_cons

theorem read_append (r : Reading) (ts ts' : List Token) :
    r.read (ts ++ ts') = (r.read ts).bind (·.read ts') := List.foldlM_append

/-- A value begins with a token that ends nothing. -/
theorem tokens_eq_cons (v : Json) : ∃ t ts, v.tokens = t :: ts ∧ t ≠ .closeBracket := by
  cases v <;> exact ⟨_, _, rfl, Token.noConfusion⟩

theorem itemTokens_cons_cons (v w : Json) (rest : List Json) :
    itemTokens (v :: w :: rest) = v.tokens ++ .comma :: itemTokens (w :: rest) := rfl

theorem memberTokens_cons_cons (k : Option String) (v : Json) (m : Option String × Json)
    (rest : List (Option String × Json)) :
    memberTokens ((k, v) :: m :: rest) =
      .string k :: .colon :: v.tokens ++ .comma :: memberTokens (m :: rest) := rfl

theorem itemTokens_eq_append (v : Json) (rest : List Json) :
    ∃ ts, itemTokens (v :: rest) = v.tokens ++ ts := by
  cases rest with
  | nil => exact ⟨[], (List.append_nil _).symm⟩
  | cons w rest => exact ⟨_, rfl⟩

theorem memberTokens_eq_cons (m : Option String × Json) (rest : List (Option String × Json)) :
    ∃ ts, memberTokens (m :: rest) = .string m.1 :: .colon :: (m.2.tokens ++ ts) := by
  cases rest with
  | nil => exact ⟨[], by rw [List.append_nil]; rfl⟩
  | cons w rest => exact ⟨_, rfl⟩

/-- The first item of an array is read as any other value. -/
theorem read_itemOrEnd (frames : List Frame) (v : Json) (ts : List Token) :
    read ⟨frames, .itemOrEnd⟩ (v.tokens ++ ts) = read ⟨frames, .value⟩ (v.tokens ++ ts) := by
  obtain ⟨t, rest, htokens, ht⟩ := tokens_eq_cons v
  have hstep : step ⟨frames, .itemOrEnd⟩ t = step ⟨frames, .value⟩ t := by
    cases t with
    | closeBracket => exact absurd rfl ht
    | _ => rfl
  rw [htokens, List.cons_append, read_cons, hstep, read_cons]

mutual

/-- The tokens of a value are read as that value. -/
theorem read_tokens : (v : Json) → (frames : List Frame) →
    read ⟨frames, .value⟩ v.tokens = some ⟨frames, .more v⟩
  | .null, _ => rfl
  | .bool _, _ => rfl
  | .number _, _ => rfl
  | .string _, _ => rfl
  | .array [], _ => rfl
  | .array (v :: rest), frames => by
      obtain ⟨ts, hts⟩ := itemTokens_eq_append v rest
      have hitems := read_items (v :: rest) (List.cons_ne_nil v rest) [] frames
      rw [hts, List.append_assoc, ← read_itemOrEnd] at hitems
      rw [tokens, hts, List.cons_append, List.append_assoc]
      exact hitems
  | .object [], _ => rfl
  | .object (m :: rest), frames => by
      obtain ⟨ts, hts⟩ := memberTokens_eq_cons m rest
      have hmembers := read_members (m :: rest) (List.cons_ne_nil m rest) [] frames
      rw [hts] at hmembers
      rw [tokens, hts]
      exact hmembers

/-- Some items of an array are read one by one, to the end of the array. -/
theorem read_items : (items : List Json) → items ≠ [] → (before : List Json) →
    (frames : List Frame) →
    read ⟨.array before :: frames, .value⟩ (itemTokens items ++ [.closeBracket]) =
      some ⟨frames, .more (.array (before.reverse ++ items))⟩
  | [], h, _, _ => absurd rfl h
  | [v], _, before, frames => by
      rw [itemTokens, read_append, read_tokens v, Option.bind_some, ← List.reverse_cons]
      rfl
  | v :: w :: rest, _, before, frames => by
      have hrest := read_items (w :: rest) (List.cons_ne_nil w rest) (v :: before) frames
      rw [List.reverse_cons, List.append_assoc] at hrest
      rw [itemTokens_cons_cons, List.append_assoc, read_append, read_tokens v, Option.bind_some]
      exact hrest

/-- Some members of an object are read one by one, to the end of the
object. -/
theorem read_members : (members : List (Option String × Json)) → members ≠ [] →
    (before : List (Option String × Json)) → (frames : List Frame) →
    read ⟨frames, .key before⟩ (memberTokens members ++ [.closeBrace]) =
      some ⟨frames, .more (.object (before.reverse ++ members))⟩
  | [], h, _, _ => absurd rfl h
  | [(k, v)], _, before, frames => by
      have hvalue := read_tokens v (.object before k :: frames)
      show read ⟨.object before k :: frames, .value⟩ (v.tokens ++ [.closeBrace]) = _
      rw [read_append, hvalue, Option.bind_some, ← List.reverse_cons]
      rfl
  | (k, v) :: m :: rest, _, before, frames => by
      have hrest := read_members (m :: rest) (List.cons_ne_nil m rest) ((k, v) :: before) frames
      have hvalue := read_tokens v (.object before k :: frames)
      rw [List.reverse_cons, List.append_assoc] at hrest
      rw [memberTokens_cons_cons, List.append_assoc]
      show read ⟨.object before k :: frames, .value⟩ (v.tokens ++ _) = _
      rw [read_append, hvalue, Option.bind_some]
      exact hrest

end

end Reading

theorem ofTokens?_tokens (v : Json) : ofTokens? v.tokens = some v := by
  show (Reading.start.read v.tokens).bind Reading.finish? = some v
  rw [Reading.start, Reading.read_tokens]
  rfl

-- ============================================================= plain values

mutual

/-- A value that is written as it is read: every number is an integer, and
every string and every key has a text. -/
def IsPlain : Json → Prop
  | .number n => n.isPlain = true
  | .string s => s.isSome = true
  | .array items => ArePlain items
  | .object members => MembersArePlain members
  | _ => True

def ArePlain : List Json → Prop
  | [] => True
  | v :: rest => v.IsPlain ∧ ArePlain rest

def MembersArePlain : List (Option String × Json) → Prop
  | [] => True
  | (k, v) :: rest => k.isSome = true ∧ v.IsPlain ∧ MembersArePlain rest

end

theorem arePlain_iff (items : List Json) : ArePlain items ↔ ∀ v ∈ items, v.IsPlain := by
  induction items with
  | nil => exact iff_of_true trivial fun v hv => absurd hv List.not_mem_nil
  | cons v rest ih => rw [ArePlain, ih, List.forall_mem_cons]

theorem membersArePlain_iff (members : List (Option String × Json)) :
    MembersArePlain members ↔ ∀ m ∈ members, m.1.isSome = true ∧ m.2.IsPlain := by
  induction members with
  | nil => exact iff_of_true trivial fun v hv => absurd hv List.not_mem_nil
  | cons m rest ih => rw [MembersArePlain, ih, List.forall_mem_cons, and_assoc]

mutual

theorem legible_tokens : (v : Json) → v.IsPlain → Legible v.tokens
  | .null, _ => legible_singleton rfl
  | .bool _, _ => legible_singleton rfl
  | .number _, h => legible_singleton h
  | .string _, h => legible_singleton h
  | .array items, h => ((legible_items items h).append_cons legible_nil rfl rfl).cons rfl rfl
  | .object members, h => ((legible_members members h).append_cons legible_nil rfl rfl).cons rfl rfl

theorem legible_items : (items : List Json) → ArePlain items → Legible (itemTokens items)
  | [], _ => legible_nil
  | [v], h => legible_tokens v h.1
  | v :: w :: rest, h =>
      (legible_tokens v h.1).append_cons (legible_items (w :: rest) h.2) rfl rfl

theorem legible_members : (members : List (Option String × Json)) → MembersArePlain members →
    Legible (memberTokens members)
  | [], _ => legible_nil
  | [(k, v)], h =>
      ((legible_tokens v h.2.1).cons (t := .colon) rfl rfl).cons (t := .string k) h.1 rfl
  | (k, v) :: m :: rest, h =>
      have hv := legible_tokens v h.2.1
      ((hv.cons (t := .colon) rfl rfl).cons (t := .string k) h.1 rfl).append_cons
        (legible_members (m :: rest) h.2.2) rfl rfl

end

/-- Whatever blanks a text has, it is parsed as the value it writes. -/
theorem parse?_of_spaced {v : Json} (hv : v.IsPlain) {text : List Char}
    (h : Spaced v.tokens text) : parse? text = some v := by
  show (tokens? text).bind ofTokens? = some v
  rw [tokens?_of_spaced h (legible_tokens v hv)]
  exact ofTokens?_tokens v

/-- The compact text of a value has no control characters. -/
theorem isVisible_of_mem_compact {v : Json} (hv : v.IsPlain) :
    ∀ c ∈ v.chars, isVisible c = true := by
  intro c hc
  obtain ⟨t, ht, hc⟩ := List.mem_flatMap.1 hc
  exact isVisible_of_mem_chars ((legible_tokens v hv).plain t ht) c hc

-- ===================================================================== order

/-- The second value is the first one with the members of its objects in some
order, at any depth. -/
inductive Reordered : Json → Json → Prop
  | null : Reordered .null .null
  | bool (b : Bool) : Reordered (.bool b) (.bool b)
  | number (n : Numeral) : Reordered (.number n) (.number n)
  | string (s : Option String) : Reordered (.string s) (.string s)
  | array {items items' : List Json} (h : List.Forall₂ Reordered items items') :
      Reordered (.array items) (.array items')
  | object {members middle members' : List (Option String × Json)}
      (hkeys : middle.map Prod.fst = members.map Prod.fst)
      (hvalues : List.Forall₂ Reordered (members.map Prod.snd) (middle.map Prod.snd))
      (hperm : members'.Perm middle) :
      Reordered (.object members) (.object members')

mutual

/-- One order is the given one. -/
theorem Reordered.refl : (v : Json) → Reordered v v
  | .null => .null
  | .bool b => .bool b
  | .number n => .number n
  | .string s => .string s
  | .array items => .array (reordered_items items)
  | .object members => .object rfl (reordered_values members) (.refl members)

theorem reordered_items : (items : List Json) → List.Forall₂ Reordered items items
  | [] => .nil
  | v :: rest => .cons (.refl v) (reordered_items rest)

theorem reordered_values : (members : List (Option String × Json)) →
    List.Forall₂ Reordered (members.map Prod.snd) (members.map Prod.snd)
  | [] => .nil
  | (_, v) :: rest => .cons (.refl v) (reordered_values rest)

end

/-- An object with one member has one order. -/
theorem Reordered.single {k : Option String} {v j : Json} (h : Reordered (.object [(k, v)]) j) :
    ∃ w, j = .object [(k, w)] ∧ Reordered v w := by
  cases h with
  | object hkeys hvalues hperm =>
      obtain ⟨⟨_, w⟩, _, rfl, rfl, hnone⟩ := List.map_eq_cons_iff.1 hkeys
      obtain rfl := List.map_eq_nil_iff.1 hnone
      obtain rfl := List.perm_singleton.1 hperm
      exact ⟨w, rfl, (List.forall₂_cons.1 hvalues).1⟩

theorem Reordered.pair {k k' : Option String} {v v' j : Json}
    (h : Reordered (.object [(k, v), (k', v')]) j) :
    ∃ members w w', j = .object members ∧ members.Perm [(k, w), (k', w')] ∧ Reordered v w ∧
      Reordered v' w' := by
  cases h with
  | object hkeys hvalues hperm =>
      obtain ⟨⟨_, w⟩, _, rfl, rfl, hrest⟩ := List.map_eq_cons_iff.1 hkeys
      obtain ⟨⟨_, w'⟩, _, rfl, rfl, hnone⟩ := List.map_eq_cons_iff.1 hrest
      obtain rfl := List.map_eq_nil_iff.1 hnone
      obtain ⟨hw, hvalues⟩ := List.forall₂_cons.1 hvalues
      exact ⟨_, w, w', rfl, hperm, hw, (List.forall₂_cons.1 hvalues).1⟩

end SymbolicSearch.Json
