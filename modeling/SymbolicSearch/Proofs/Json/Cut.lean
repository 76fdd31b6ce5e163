/-
Texts cut into the tokens they were written from. Between the tokens of a
text there may be blanks (`Spaced`); whichever there are, the cut finds the
tokens again (`tokens?_of_spaced`).

# What is left open

A word or a string ends with its last character, but a number goes on as
long as digits come. After a number the cut is therefore still in it, and it
is the next character that ends it. `Cut.finish?` says what has been read if
the text were to end here, in either case; it is what every step is
described by. Two numbers with nothing between them would be one, so two
numbers must not stand next to each other (`Apart`); in the tokens of a value
they never do.
-/
import Mathlib.Data.List.Chain
import Mathlib.Tactic.IntervalCases
import SymbolicSearch.Json.Token
import SymbolicSearch.Proofs.Text.Decimal

namespace SymbolicSearch.Json

namespace Token

/-- A token that is written as it is read: a number has to be an integer, and
a string has to have a text. -/
def isPlain : Token → Bool
  | .number n => n.isPlain
  | .string s => s.isSome
  | _ => true

def isNumber : Token → Bool
  | .number _ => true
  | _ => false

end Token

/-- No two numbers stand next to each other. -/
def Apart (ts : List Token) : Prop :=
  ts.IsChain fun t t' => t.isNumber = true → t'.isNumber = false

/-- Tokens that can be read again from a text of them. -/
structure Legible (ts : List Token) : Prop where
  plain : ∀ t ∈ ts, t.isPlain = true
  apart : Apart ts

theorem legible_nil : Legible [] := ⟨fun _ ht => absurd ht List.not_mem_nil, .nil⟩

theorem legible_singleton {t : Token} (ht : t.isPlain = true) : Legible [t] :=
  ⟨List.forall_mem_singleton.2 ht, .singleton t⟩

/-- Tokens may follow one another if one that is no number stands between. -/
theorem Legible.append_cons {ts ts' : List Token} (h : Legible ts) (h' : Legible ts') {t : Token}
    (ht : t.isPlain = true) (hnumber : t.isNumber = false) : Legible (ts ++ t :: ts') := by
  refine ⟨List.forall_mem_append.2 ⟨h.plain, List.forall_mem_cons.2 ⟨ht, h'.plain⟩⟩, ?_⟩
  have hafter : Apart (t :: ts') := by
    refine List.isChain_cons.2 ⟨fun t' _ ht' => ?_, h'.apart⟩
    exact absurd (hnumber.symm.trans ht') Bool.noConfusion
  refine List.isChain_append.2 ⟨h.apart, hafter, fun t' _ t'' ht'' _ => ?_⟩
  obtain rfl := Option.some.inj ht''
  exact hnumber

theorem Legible.cons {ts : List Token} (h : Legible ts) {t : Token} (ht : t.isPlain = true)
    (hnumber : t.isNumber = false) : Legible (t :: ts) := legible_nil.append_cons h ht hnumber

/-- A text of tokens with blanks between them. -/
inductive Spaced : List Token → List Char → Prop
  | done {gap : List Char} (hgap : ∀ c ∈ gap, isGap c = true) : Spaced [] gap
  | token {gap : List Char} {t : Token} {ts : List Token} {rest : List Char}
      (hgap : ∀ c ∈ gap, isGap c = true) (hrest : Spaced ts rest) :
      Spaced (t :: ts) (gap ++ (t.chars ++ rest))

/-- There need not be any blanks. -/
theorem spaced_compact (ts : List Token) : Spaced ts (ts.flatMap Token.chars) := by
  have hnone : ∀ c ∈ [], isGap c = true := fun c hc => absurd hc List.not_mem_nil
  induction ts with
  | nil => exact .done hnone
  | cons t ts ih => exact .token hnone ih

/-- More blanks may follow. -/
theorem Spaced.append_gap {ts : List Token} {text gap : List Char} (h : Spaced ts text)
    (hgap : ∀ c ∈ gap, isGap c = true) : Spaced ts (text ++ gap) := by
  induction h with
  | done h => exact .done (List.forall_mem_append.2 ⟨h, hgap⟩)
  | token h _ ih =>
      rw [List.append_assoc, List.append_assoc]
      exact .token h ih

-- ================================================================== no controls

/-- The character is no control character. -/
def isVisible (c : Char) : Bool := 0x20 ≤ c.toNat

/-- Control characters are written as escapes. -/
theorem isVisible_of_mem_escaped (c : Char) : ∀ x ∈ escaped c, isVisible x = true := by
  have hdigit : ∀ d < 16, isVisible d.digitChar = true := by decide
  unfold escaped
  split
  next h =>
    simp only [Bool.or_eq_true, decide_eq_true_eq] at h
    rcases h with rfl | rfl <;> exact List.all_eq_true.1 rfl
  iterate 5
    split
    next => exact List.all_eq_true.1 rfl
  split
  next h =>
    have hhigh := hdigit (c.toNat / 16) (by omega)
    have hlow := hdigit (c.toNat % 16) (by omega)
    have hstart : ∀ x ∈ ['\\', 'u', '0', '0'], isVisible x = true := List.all_eq_true.1 rfl
    refine List.forall_mem_append.2 ⟨hstart, List.forall_mem_cons.2 ⟨hhigh, ?_⟩⟩
    exact List.forall_mem_singleton.2 hlow
  next h => exact List.forall_mem_singleton.2 (decide_eq_true (Nat.le_of_not_lt h))

/-- An integer is written as its digits, after a sign if it is negative. -/
theorem Numeral.chars_of_isPlain {n : Numeral} (hn : n.isPlain = true) :
    n.chars = (if n.negative then ['-'] else []) ++ Nat.toDigits 10 n.whole := by
  simp only [isPlain, Bool.and_eq_true, Option.isNone_iff_eq_none] at hn
  rw [chars, hn.1, hn.2, List.append_nil, List.append_nil]

/-- A text of tokens has no control characters. -/
theorem isVisible_of_mem_chars {t : Token} (ht : t.isPlain = true) :
    ∀ x ∈ t.chars, isVisible x = true := by
  cases t with
  | number n =>
      have hdigits : ∀ x ∈ Nat.toDigits 10 n.whole, isVisible x = true := by
        intro x hx
        have hdigit := Nat.isDigit_of_mem_toDigits (by decide) (Nat.le_refl 10) hx
        exact decide_eq_true (Nat.le_trans (by decide) (Char.isDigit_iff_toNat.1 hdigit).1)
      rw [Token.chars, Numeral.chars_of_isPlain ht]
      refine List.forall_mem_append.2 ⟨?_, hdigits⟩
      split <;> exact List.all_eq_true.1 rfl
  | string o =>
      have htext : ∀ x ∈ (o.getD "").toList.flatMap escaped, isVisible x = true := by
        intro x hx
        obtain ⟨c, -, hx⟩ := List.mem_flatMap.1 hx
        exact isVisible_of_mem_escaped c x hx
      have hquote : ∀ x ∈ ['"'], isVisible x = true := List.all_eq_true.1 rfl
      exact List.forall_mem_append.2 ⟨List.forall_mem_cons.2 ⟨rfl, htext⟩, hquote⟩
  | bool b => cases b <;> exact List.all_eq_true.1 rfl
  | _ => exact List.all_eq_true.1 rfl

namespace Cut

-- ================================================================= reading on

/-- The characters of a text, one after the other. -/
def read (s : Cut) (text : List Char) : Option Cut := text.foldlM step s

theorem read_cons (s : Cut) (c : Char) (text : List Char) :
    s.read (c :: text) = (s.step c).bind (·.read text) := List.foldlM_cons

theorem read_append (s : Cut) (text text' : List Char) :
    s.read (text ++ text') = (s.read text).bind (·.read text') := List.foldlM_append

theorem read_of_step {s s' : Cut} {c : Char} (h : s.step c = some s') (text : List Char) :
    s.read (c :: text) = s'.read text := by
  rw [read_cons, h]
  rfl

theorem finish?_between (pre : List Token) :
    finish? ⟨pre, .between⟩ = some pre.reverse := rfl

theorem finish?_number {p : Part} (hp : p.isEnd = true) (pre : List Token) (n : Numeral) :
    finish? ⟨pre, .number n p⟩ = some (pre.reverse ++ [.number n]) := by
  simp only [finish?, hp, List.reverse_cons]
  rfl

/-- A text can end between two tokens or in a number. -/
theorem finish?_cases {s : Cut} {ts : List Token} (h : s.finish? = some ts) :
    s = ⟨ts.reverse, .between⟩ ∨
      ∃ pre n p, p.isEnd = true ∧ s = ⟨pre, .number n p⟩ ∧ ts = pre.reverse ++ [.number n] := by
  obtain ⟨pre, mode⟩ := s
  cases mode with
  | between =>
      obtain rfl := Option.some.inj h
      exact Or.inl (by rw [List.reverse_reverse])
  | number n p =>
      cases hp : p.isEnd with
      | true =>
          rw [finish?_number hp] at h
          exact Or.inr ⟨pre, n, p, hp, rfl, (Option.some.inj h).symm⟩
      | false =>
          simp only [finish?, hp] at h
          cases h
  | word rest t => cases h
  | string units => cases h
  | escape units => cases h
  | hex units missing value => cases h

-- ============================================================ after a number

/-- A number that could end does not go on with the character. -/
def isFresh (c : Char) : Bool := !c.isDigit && c ≠ '.' && c ≠ 'e' && c ≠ 'E'

theorem isFresh_of_isGap {c : Char} (h : isGap c = true) : isFresh c = true := by
  simp only [isGap, Bool.or_eq_true, decide_eq_true_eq] at h
  rcases h with ((rfl | rfl) | rfl) | rfl <;> rfl

theorem take_of_isFresh {c : Char} (hc : isFresh c = true) {p : Part} (hp : p.isEnd = true)
    (n : Numeral) : p.take n c = none := by
  simp only [isFresh, Bool.and_eq_true, Bool.not_eq_true', decide_eq_true_eq] at hc
  obtain ⟨⟨⟨hdigit, hpoint⟩, hlower⟩, hupper⟩ := hc
  have hnone : digit? c = none := by rw [digit?, hdigit]; rfl
  cases p <;> simp_all [Part.take, Part.isEnd]

/-- Such a character is read as if it stood between two tokens. -/
theorem step_of_isFresh {s : Cut} {ts : List Token} (hs : s.finish? = some ts) {c : Char}
    (hc : isFresh c = true) : s.step c = begin ts.reverse c := by
  obtain rfl | ⟨pre, n, p, hp, rfl, rfl⟩ := finish?_cases hs
  · rfl
  · rw [List.reverse_append, List.reverse_reverse]
    simp only [step, take_of_isFresh hc hp, hp]
    rfl

/-- Blanks change nothing. -/
theorem read_gap {gap : List Char} (hgap : ∀ c ∈ gap, isGap c = true) {s : Cut}
    {ts : List Token} (hs : s.finish? = some ts) :
    ∃ s', s.read gap = some s' ∧ s'.finish? = some ts := by
  induction gap generalizing s with
  | nil => exact ⟨s, rfl, hs⟩
  | cons c gap ih =>
      obtain ⟨hc, hgap⟩ := List.forall_mem_cons.1 hgap
      have hstep : s.step c = some ⟨ts.reverse, .between⟩ := by
        rw [step_of_isFresh hs (isFresh_of_isGap hc), begin, if_pos hc]
      rw [read_of_step hstep]
      exact ih hgap (by rw [finish?_between, List.reverse_reverse])

-- =================================================================== numbers

theorem digit?_digitChar {d : Nat} (hd : d < 10) : digit? d.digitChar = some d := by
  interval_cases d <;> rfl

/-- A digit begins a number. -/
theorem begin_digitChar {d : Nat} (hd : d < 10) (pre : List Token) :
    begin pre d.digitChar = step ⟨pre, .number (.ofNat 0) .sign⟩ d.digitChar := by
  interval_cases d <;> rfl

/-- A digit goes on with a number. -/
theorem step_digitChar {d : Nat} (hd : d < 10) {pre : List Token} {n n' : Numeral} {p p' : Part}
    (h : p.takeDigit n d = some (n', p')) :
    step ⟨pre, .number n p⟩ d.digitChar = some ⟨pre, .number n' p'⟩ := by
  have htake : p.take n d.digitChar = some (n', p') := by
    simp only [Part.take, digit?_digitChar hd]
    exact h
  simp only [step, htake]

/-- The part of a whole number that its last digit belongs to. -/
def wholePart (n : Nat) : Part := if n = 0 then .zero else .whole

theorem isEnd_wholePart (n : Nat) : (wholePart n).isEnd = true := by
  unfold wholePart
  split <;> rfl

theorem read_digits (pre : List Token) (negative : Bool) (n : Nat) :
    read ⟨pre, .number ⟨negative, 0, none, none⟩ .sign⟩ (Nat.toDigits 10 n) =
      some ⟨pre, .number ⟨negative, n, none, none⟩ (wholePart n)⟩ := by
  induction n using Nat.strongRecOn with
  | _ n ih =>
      rcases Nat.lt_or_ge n 10 with hn | hn
      · rw [Nat.toDigits_of_lt_base hn]
        exact read_of_step (step_digitChar hn rfl) []
      · -- all digits but the last are those of a tenth
        have htenth : n / 10 < n := Nat.div_lt_self (by omega) (by decide)
        have hwhole : wholePart (n / 10) = .whole := if_neg (by omega)
        have hlast : n / 10 * 10 + n % 10 = n := by omega
        rw [Nat.toDigits_of_base_le (by decide) hn, read_append, ih _ htenth, hwhole,
          Option.bind_some, wholePart, if_neg (by omega)]
        refine read_of_step (step_digitChar (Nat.mod_lt n (by decide)) ?_) []
        rw [Part.takeDigit, hlast]

/-- A number is read as far as its last digit. -/
theorem read_number {n : Numeral} (hn : n.isPlain = true) (pre : List Token) :
    ∃ c cs, n.chars = c :: cs ∧
      (begin pre c).bind (·.read cs) = some ⟨pre, .number n (wholePart n.whole)⟩ := by
  have hchars := Numeral.chars_of_isPlain hn
  obtain ⟨negative, whole, fraction, exponent⟩ := n
  simp only [Numeral.isPlain, Bool.and_eq_true, Option.isNone_iff_eq_none] at hn
  obtain ⟨rfl, rfl⟩ := hn
  have hdigits := read_digits pre negative whole
  cases negative with
  | true => exact ⟨'-', Nat.toDigits 10 whole, hchars, hdigits⟩
  | false =>
      have hchars : Numeral.chars ⟨false, whole, none, none⟩ = Nat.toDigits 10 whole := hchars
      rw [hchars]
      cases hd : Nat.toDigits 10 whole with
      | nil => exact absurd hd Nat.toDigits_ne_nil
      | cons c cs =>
          have hc : c.isDigit = true :=
            Nat.isDigit_of_mem_toDigits (by decide) (Nat.le_refl 10) (hd ▸ List.mem_cons_self)
          obtain ⟨d, hlt, rfl⟩ := Text.exists_digitChar hc
          refine ⟨_, _, rfl, ?_⟩
          rw [begin_digitChar hlt, ← read_cons, ← hd]
          exact hdigits

-- =================================================================== strings

theorem hexDigit?_digitChar {d : Nat} (hd : d < 16) : hexDigit? d.digitChar = some d := by
  interval_cases d <;> rfl

/-- The last two digits of a numbered escape. -/
theorem read_hex {a b : Nat} (ha : a < 16) (hb : b < 16) (pre : List Token) (units : List Nat) :
    read ⟨pre, .hex units 1 0⟩ [a.digitChar, b.digitChar] =
      some ⟨pre, .string ((a * 16 + b) :: units)⟩ := by
  have hfirst : step ⟨pre, .hex units 1 0⟩ a.digitChar = some ⟨pre, .hex units 0 a⟩ := by
    simp only [step, hexDigit?_digitChar ha, Option.map_some, Nat.zero_mul, Nat.zero_add]
  refine (read_of_step hfirst _).trans (read_of_step ?_ [])
  simp only [step, hexDigit?_digitChar hb, Option.map_some]

/-- An escaped character is read as one unit. -/
theorem read_escaped (c : Char) (pre : List Token) (units : List Nat) :
    read ⟨pre, .string units⟩ (escaped c) = some ⟨pre, .string (c.toNat :: units)⟩ := by
  unfold escaped
  split
  next h =>
    simp only [Bool.or_eq_true, decide_eq_true_eq] at h
    rcases h with rfl | rfl <;> rfl
  split
  next h => subst h; rfl
  split
  next h => subst h; rfl
  split
  next h => subst h; rfl
  split
  next h => subst h; rfl
  split
  next h => subst h; rfl
  split
  next h =>
    -- the two digits that are not zero
    have hdigits := read_hex (a := c.toNat / 16) (b := c.toNat % 16) (by omega)
      (Nat.mod_lt _ (by decide)) pre units
    rw [Nat.div_add_mod'] at hdigits
    exact hdigits
  next hquote _ _ _ _ _ hcontrol =>
    simp only [Bool.or_eq_true, decide_eq_true_eq, not_or] at hquote
    refine read_of_step ?_ []
    simp only [step, if_neg hquote.1, if_neg hquote.2, if_neg hcontrol]

theorem read_flatMap_escaped (cs : List Char) (pre : List Token) (units : List Nat) :
    read ⟨pre, .string units⟩ (cs.flatMap escaped) =
      some ⟨pre, .string ((cs.map Char.toNat).reverse ++ units)⟩ := by
  induction cs generalizing units with
  | nil => rfl
  | cons c cs ih =>
      rw [List.flatMap_cons, read_append, read_escaped, Option.bind_some, ih, List.map_cons,
        List.reverse_cons, List.append_assoc, List.singleton_append]

/-- Characters are no halves of surrogate pairs. -/
theorem assemble_toNat (cs : List Char) : assemble (cs.map Char.toNat) = some cs := by
  induction cs with
  | nil => rfl
  | cons c cs ih =>
      have hvalid : c.toNat < 0xD800 ∨ 0xDFFF < c.toNat ∧ c.toNat < 0x110000 := c.valid
      rw [List.map_cons, assemble.eq_def]
      simp only
      rw [if_neg (by omega), if_neg (by omega), ih, Option.map_some, Char.ofNat_toNat]

/-- A string is read to its closing quote. -/
theorem read_string (s : String) (pre : List Token) :
    (begin pre '"').bind (·.read (s.toList.flatMap escaped ++ ['"'])) =
      some (emit pre (.string (some s))) := by
  have hbegin : begin pre '"' = some ⟨pre, .string []⟩ := rfl
  have hstring : stringToken (s.toList.map Char.toNat).reverse = .string (some s) := by
    rw [stringToken, List.reverse_reverse, assemble_toNat, Option.map_some, String.ofList_toList]
  rw [hbegin, Option.bind_some, read_append, read_flatMap_escaped, Option.bind_some,
    List.append_nil, ← hstring]
  rfl

-- ==================================================================== tokens

theorem finish?_emit (pre : List Token) (t : Token) :
    finish? (emit pre t) = some (pre.reverse ++ [t]) := by
  rw [emit, finish?_between, List.reverse_cons]

/-- A token is read from its characters. The first of them ends a number
before it, unless the token is a number itself. -/
theorem read_token {t : Token} (ht : t.isPlain = true) (pre : List Token) :
    ∃ c cs s, t.chars = c :: cs ∧ (t.isNumber = false → isFresh c = true) ∧
      (begin pre c).bind (·.read cs) = some s ∧ s.finish? = some (pre.reverse ++ [t]) := by
  cases t with
  | number n =>
      obtain ⟨c, cs, hchars, hread⟩ := read_number ht pre
      exact ⟨c, cs, _, hchars, fun h => Bool.noConfusion h, hread,
        finish?_number (isEnd_wholePart _) pre n⟩
  | string o =>
      obtain ⟨s, rfl⟩ := Option.isSome_iff_exists.1 ht
      exact ⟨'"', _, _, rfl, fun _ => rfl, read_string s pre, finish?_emit pre _⟩
  | bool b => cases b <;> exact ⟨_, _, _, rfl, fun _ => rfl, rfl, finish?_emit pre _⟩
  | openBrace => exact ⟨_, _, _, rfl, fun _ => rfl, rfl, finish?_emit pre _⟩
  | closeBrace => exact ⟨_, _, _, rfl, fun _ => rfl, rfl, finish?_emit pre _⟩
  | openBracket => exact ⟨_, _, _, rfl, fun _ => rfl, rfl, finish?_emit pre _⟩
  | closeBracket => exact ⟨_, _, _, rfl, fun _ => rfl, rfl, finish?_emit pre _⟩
  | colon => exact ⟨_, _, _, rfl, fun _ => rfl, rfl, finish?_emit pre _⟩
  | comma => exact ⟨_, _, _, rfl, fun _ => rfl, rfl, finish?_emit pre _⟩
  | null => exact ⟨_, _, _, rfl, fun _ => rfl, rfl, finish?_emit pre _⟩

/-- One token more. -/
theorem read_next {s : Cut} {ts : List Token} (hs : s.finish? = some ts) {t : Token}
    (ht : t.isPlain = true) (hapart : Apart (ts ++ [t])) :
    ∃ s', s.read t.chars = some s' ∧ s'.finish? = some (ts ++ [t]) := by
  obtain ⟨c, cs, s', hchars, hfresh, hread, hfinish⟩ := read_token ht ts.reverse
  rw [List.reverse_reverse] at hfinish
  have hstep : s.step c = begin ts.reverse c := by
    cases hnumber : t.isNumber with
    | false => exact step_of_isFresh hs (hfresh hnumber)
    | true =>
        obtain rfl | ⟨pre, n, p, -, -, rfl⟩ := finish?_cases hs
        · rfl
        · -- a number before a number
          rw [Apart, List.append_assoc, List.singleton_append] at hapart
          have hpair := (List.isChain_cons_cons.1 hapart.right_of_append).1 rfl
          exact absurd (hnumber.symm.trans hpair) Bool.noConfusion
  exact ⟨s', by rw [hchars, read_cons, hstep, hread], hfinish⟩

/-- A spaced text is read token by token. -/
theorem read_spaced {ts : List Token} {text : List Char} (h : Spaced ts text)
    (hplain : ∀ t ∈ ts, t.isPlain = true) {s : Cut} {before : List Token}
    (hs : s.finish? = some before) (hapart : Apart (before ++ ts)) :
    ∃ s', s.read text = some s' ∧ s'.finish? = some (before ++ ts) := by
  induction h generalizing s before with
  | done hgap =>
      rw [List.append_nil]
      exact read_gap hgap hs
  | @token gap t ts rest hgap hrest ih =>
      obtain ⟨ht, hplain⟩ := List.forall_mem_cons.1 hplain
      rw [List.append_cons] at hapart ⊢
      obtain ⟨s₁, hread₁, hs₁⟩ := read_gap hgap hs
      obtain ⟨s₂, hread₂, hs₂⟩ := read_next hs₁ ht hapart.left_of_append
      obtain ⟨s₃, hread₃, hs₃⟩ := ih hplain hs₂ hapart
      refine ⟨s₃, ?_, hs₃⟩
      rw [read_append, hread₁, Option.bind_some, read_append, hread₂, Option.bind_some, hread₃]

end Cut

/-- Whatever blanks there are between the tokens of a text, they are found
again. -/
theorem tokens?_of_spaced {ts : List Token} {text : List Char} (h : Spaced ts text)
    (hts : Legible ts) : tokens? text = some ts := by
  have hstart : Cut.start.finish? = some [] := rfl
  obtain ⟨s, hread, hs⟩ := Cut.read_spaced h hts.plain hstart hts.apart
  show (Cut.start.read text).bind Cut.finish? = some ts
  rw [hread]
  exact hs

end SymbolicSearch.Json
