/-
Which texts write a count, and the count that each writes. A text may be of
any length and hold any characters; what is read from it is a number below a
bound or nothing, and it is a number just if the text, without the white
space around it, is a numeral of that number (`count?_eq_some`).

# White space

`Strips` says what is left of a text when the white space at either end is
gone: the text is that with white space around, and no end of it is white
space. There is one such rest (`strips_iff`), also where the text is white
space throughout.

# Digits

`Denotes` builds a numeral from its last digit: with one digit more a number
is ten times what it was, and the digit. A reader goes the other way, from
the first digit on, and carries what it has read. Zeros in front are the only
choice that there is in writing a number (`count?_eq_some_iff_zeros`).

# In a word

A reader need not form the number to see that it is too great. One more digit
never makes a number smaller, so it may give up at the first step that leaves
the bound, and all that it carries fits in a word (`count?_eq_tally?`).
-/
import Mathlib.Data.List.DropRight
import Mathlib.Data.List.Induction
import SymbolicSearch.Text.Decimal

namespace SymbolicSearch.Text

variable {c : Char} {text core front back digits : List Char} {n bound : Nat}

-- =============================================================== white space

/-- The code points with the property White_Space, one by one. -/
def whiteSpace : List Nat :=
  [0x9, 0xA, 0xB, 0xC, 0xD, 0x20, 0x85, 0xA0, 0x1680, 0x2000, 0x2001, 0x2002, 0x2003, 0x2004,
    0x2005, 0x2006, 0x2007, 0x2008, 0x2009, 0x200A, 0x2028, 0x2029, 0x202F, 0x205F, 0x3000]

theorem isBlank_iff : isBlank c = true ↔ c.toNat ∈ whiteSpace := by
  simp only [isBlank, whiteSpace, Bool.or_eq_true, Bool.and_eq_true, decide_eq_true_eq,
    beq_iff_eq, List.mem_cons, List.not_mem_nil, or_false]
  omega

/-- What is left of a text without the white space at its ends. -/
inductive Strips : List Char → List Char → Prop
  | intro {front core back : List Char} (hfront : ∀ c ∈ front, c.toNat ∈ whiteSpace)
    (hback : ∀ c ∈ back, c.toNat ∈ whiteSpace) (hfirst : ∀ c ∈ core.head?, c.toNat ∉ whiteSpace)
    (hlast : ∀ c ∈ core.getLast?, c.toNat ∉ whiteSpace) : Strips (front ++ core ++ back) core

theorem trim_eq (text : List Char) :
    trim text = (text.dropWhile isBlank).rdropWhile isBlank := rfl

theorem strips_trim (text : List Char) : Strips text (trim text) := by
  have hparts : text.takeWhile isBlank ++ trim text ++
      (text.dropWhile isBlank).rtakeWhile isBlank = text := by
    rw [trim_eq, List.append_assoc, List.rdropWhile_append_rtakeWhile,
      List.takeWhile_append_dropWhile]
  have h : Strips (text.takeWhile isBlank ++ trim text ++
      (text.dropWhile isBlank).rtakeWhile isBlank) (trim text) := by
    refine .intro (fun c hc => ?_) (fun c hc => ?_) (fun c hc => ?_) fun c hc => ?_
    · exact isBlank_iff.1 (List.mem_takeWhile_imp hc)
    · exact isBlank_iff.1 (List.mem_rtakeWhile_imp hc)
    · -- the first character left is the one at which dropping from the front stopped
      have hfirst : (text.dropWhile isBlank).head? = some c :=
        List.singleton_prefix_iff_head?_eq_some.1
          ((List.singleton_prefix_iff_head?_eq_some.2 hc).trans (List.rdropWhile_prefix ..))
      have hstop := List.head?_dropWhile_not isBlank text
      rw [hfirst] at hstop
      exact fun hmem => Bool.false_ne_true (hstop.symm.trans (isBlank_iff.2 hmem))
    · obtain ⟨hne, rfl⟩ := List.mem_getLast?_eq_getLast hc
      exact fun hmem => List.rdropWhile_last_not _ _ hne (isBlank_iff.2 hmem)
  rwa [hparts] at h

theorem dropWhile_front (hfront : ∀ c ∈ front, c.toNat ∈ whiteSpace)
    (hfirst : ∀ c ∈ core.head?, c.toNat ∉ whiteSpace) :
    (front ++ core).dropWhile isBlank = core := by
  rw [List.dropWhile_append_of_pos fun c hc => isBlank_iff.2 (hfront c hc)]
  cases core with
  | nil => rfl
  | cons c core =>
      exact List.dropWhile_cons_of_neg fun hblank => hfirst c rfl (isBlank_iff.1 hblank)

theorem rdropWhile_back (hback : ∀ c ∈ back, c.toNat ∈ whiteSpace)
    (hlast : ∀ c ∈ core.getLast?, c.toNat ∉ whiteSpace) :
    (core ++ back).rdropWhile isBlank = core := by
  rw [List.rdropWhile, List.reverse_append, dropWhile_front, List.reverse_reverse]
  · exact fun c hc => hback c (List.mem_reverse.1 hc)
  · rwa [List.head?_reverse]

theorem Strips.eq_trim (h : Strips text core) : trim text = core := by
  cases h with | @intro front _ back hfront hback hfirst hlast
  rw [trim_eq]
  cases core with
  | nil =>
      -- nothing but white space, all of which is dropped from the front
      have hall : ∀ c ∈ front ++ [] ++ back, isBlank c = true := by
        intro c hc
        rw [List.append_nil, List.mem_append] at hc
        exact isBlank_iff.2 (hc.elim (hfront c) (hback c))
      rw [List.dropWhile_eq_nil_iff.2 hall, List.rdropWhile_nil]
  | cons c core =>
      have hopen : (front ++ (c :: core ++ back)).dropWhile isBlank = c :: core ++ back :=
        dropWhile_front hfront hfirst
      rw [List.append_assoc, hopen, rdropWhile_back hback hlast]

/-- There is one rest, whichever way the white space around it is found. -/
theorem strips_iff : Strips text core ↔ trim text = core :=
  ⟨Strips.eq_trim, fun h => h ▸ strips_trim text⟩

-- ==================================================================== digits

theorem exists_digitChar (hc : c.isDigit = true) : ∃ d < 10, c = d.digitChar := by
  have hbounds : 48 ≤ c.toNat ∧ c.toNat ≤ 57 := Char.isDigit_iff_toNat.1 hc
  have hd : c.toNat - 48 < 10 := by omega
  refine ⟨c.toNat - 48, hd, Char.toNat_inj.1 ?_⟩
  rw [Nat.toNat_digitChar_of_lt_ten hd]
  omega

/-- Decimal digits, the first one first, and the number that they denote. -/
inductive Denotes : List Char → Nat → Prop
  | one {d : Nat} (hd : d < 10) : Denotes [d.digitChar] d
  | snoc {digits : List Char} {n d : Nat} (h : Denotes digits n) (hd : d < 10) :
    Denotes (digits ++ [d.digitChar]) (10 * n + d)

theorem Denotes.ne_nil (h : Denotes digits n) : digits ≠ [] := by
  cases h with
  | one hd => exact List.cons_ne_nil _ _
  | snoc h hd => exact List.append_ne_nil_of_right_ne_nil _ (List.cons_ne_nil _ _)

theorem Denotes.isDigit (h : Denotes digits n) : ∀ c ∈ digits, c.isDigit = true := by
  induction h with
  | one hd => simp [Nat.isDigit_digitChar, hd]
  | snoc h hd ih =>
      intro c hc
      rcases List.mem_append.1 hc with hc | hc
      · exact ih c hc
      · rw [List.mem_singleton.1 hc, Nat.isDigit_digitChar]
        exact decide_eq_true hd

/-- What has been read when one more digit is. -/
theorem ofDigitChars_concat {d : Nat} (hd : d < 10) (digits : List Char) :
    Nat.ofDigitChars 10 (digits ++ [d.digitChar]) 0 = 10 * Nat.ofDigitChars 10 digits 0 + d := by
  rw [Nat.ofDigitChars_append, Nat.ofDigitChars_cons_digitChar_of_lt_ten hd, Nat.ofDigitChars_nil]

theorem Denotes.ofDigitChars (h : Denotes digits n) : Nat.ofDigitChars 10 digits 0 = n := by
  induction h with
  | one hd => rw [← List.nil_append [_], ofDigitChars_concat hd, Nat.ofDigitChars_nil, Nat.zero_add]
  | snoc h hd ih => rw [ofDigitChars_concat hd, ih]

/-- Some digits denote what is read from them. -/
theorem denotes_ofDigitChars (hne : digits ≠ []) (hdigit : ∀ c ∈ digits, c.isDigit = true) :
    Denotes digits (Nat.ofDigitChars 10 digits 0) := by
  induction digits using List.reverseRecOn with
  | nil => exact absurd rfl hne
  | append_singleton front c ih =>
      obtain ⟨hfront, hc⟩ := List.forall_mem_append.1 hdigit
      obtain ⟨d, hd, rfl⟩ := exists_digitChar (hc _ (List.mem_singleton_self _))
      rw [ofDigitChars_concat hd]
      cases front with
      | nil =>
          rw [Nat.ofDigitChars_nil, Nat.mul_zero, Nat.zero_add]
          exact .one hd
      | cons c front => exact .snoc (ih (List.cons_ne_nil _ _) hfront) hd

theorem denotes_iff : Denotes digits n ↔
    digits ≠ [] ∧ (∀ c ∈ digits, c.isDigit = true) ∧ Nat.ofDigitChars 10 digits 0 = n := by
  refine ⟨fun h => ⟨h.ne_nil, h.isDigit, h.ofDigitChars⟩, ?_⟩
  rintro ⟨hne, hdigit, rfl⟩
  exact denotes_ofDigitChars hne hdigit

/-- The numerals of a number are its digits, and those with zeros in front. -/
theorem denotes_iff_zeros : Denotes digits n ↔
    ∃ k, digits = List.replicate k '0' ++ Nat.toDigits 10 n := by
  refine ⟨fun h => ?_, ?_⟩
  · induction h with
    | one hd => exact ⟨0, by rw [Nat.toDigits_of_lt_base hd]; rfl⟩
    | @snoc digits n d h hd ih =>
        obtain ⟨k, rfl⟩ := ih
        rcases Nat.eq_zero_or_pos n with rfl | hn
        · -- what was the number zero is one more zero in front
          refine ⟨k + 1, ?_⟩
          rw [Nat.mul_zero, Nat.zero_add, Nat.toDigits_of_lt_base hd, Nat.toDigits_zero,
            List.replicate_succ']
        · refine ⟨k, ?_⟩
          rw [List.append_assoc, ← Nat.toDigits_of_lt_base hd,
            Nat.toDigits_append_toDigits (by decide) hn hd]
  · rintro ⟨k, rfl⟩
    refine denotes_iff.2 ⟨List.append_ne_nil_of_right_ne_nil _ Nat.toDigits_ne_nil, ?_, ?_⟩
    · refine List.forall_mem_append.2 ⟨fun c hc => ?_, fun c hc => ?_⟩
      · rw [List.eq_of_mem_replicate hc]
        rfl
      · exact Nat.isDigit_of_mem_toDigits (by decide) (Nat.le_refl 10) hc
    · rw [Nat.ofDigitChars_append, Nat.ofDigitChars_replicate_zero, Nat.mul_zero,
        Nat.ofDigitChars_ten_toDigits]

-- ==================================================================== a count

/-- A text writes a number when a numeral of it is left without the white
space at the ends, after a single plus sign or on its own. -/
inductive Writes (text : List Char) (n : Nat) : Prop
  | plain {digits : List Char} (hrest : Strips text digits) (h : Denotes digits n)
  | signed {digits : List Char} (hrest : Strips text ('+' :: digits)) (h : Denotes digits n)

theorem Denotes.dropPlus (h : Denotes digits n) : dropPlus digits = digits := by
  unfold Text.dropPlus
  split
  next rest =>
    have hplus : '+'.isDigit = true := h.isDigit '+' List.mem_cons_self
    exact absurd hplus (by decide)
  next => rfl

theorem writes_iff : Writes text n ↔ Denotes (dropPlus (trim text)) n := by
  refine ⟨?_, fun h => ?_⟩
  · rintro (⟨hrest, h⟩ | ⟨hrest, h⟩)
    · rwa [strips_iff.1 hrest, h.dropPlus]
    · rwa [strips_iff.1 hrest]
  · have hrest : Strips text (trim text) := strips_iff.2 rfl
    generalize trim text = rest at h hrest
    unfold dropPlus at h
    split at h
    next => exact .signed hrest h
    next => exact .plain hrest h

/-- A text writes one number at most. -/
theorem Writes.unique {m : Nat} (hm : Writes text m) (hn : Writes text n) : m = n := by
  rw [← (writes_iff.1 hm).ofDigitChars, (writes_iff.1 hn).ofDigitChars]

/-- A count is read from a text just if the text writes it and it is in
bounds. -/
theorem count?_eq_some : count? bound text = some n ↔ Writes text n ∧ n < bound := by
  rw [writes_iff, denotes_iff, count?, Option.ite_none_right_eq_some, Option.some.injEq,
    List.all_eq_true]
  refine ⟨?_, ?_⟩
  · rintro ⟨⟨hne, hdigit, hlt⟩, rfl⟩
    exact ⟨⟨hne, hdigit, rfl⟩, hlt⟩
  · rintro ⟨⟨hne, hdigit, rfl⟩, hlt⟩
    exact ⟨⟨hne, hdigit, hlt⟩, rfl⟩

/-- A count is read from its digits, from its digits with zeros in front, and
from nothing else. -/
theorem count?_eq_some_iff_zeros : count? bound text = some n ↔
    (∃ k, dropPlus (trim text) = List.replicate k '0' ++ Nat.toDigits 10 n) ∧ n < bound := by
  rw [count?_eq_some, writes_iff, denotes_iff_zeros]

theorem count?_eq_none : count? bound text = none ↔ ¬∃ n, Writes text n ∧ n < bound := by
  simp only [Option.eq_none_iff_forall_ne_some, ne_eq, count?_eq_some, not_exists]

-- ================================================================== in a word

/-- A number that has to be in bounds. -/
def within? (bound n : Nat) : Option Nat := if n < bound then some n else none

/-- A number with one more digit, multiplied and added to in bounds. -/
def carry? (bound n d : Nat) : Option Nat :=
  (within? bound (10 * n)).bind fun tens => within? bound (tens + d)

/-- Reads digits after a number, and gives up at the first step out of
bounds. -/
def tally? (bound : Nat) : Nat → List Char → Option Nat
  | n, [] => some n
  | n, c :: rest => (carry? bound n (c.toNat - '0'.toNat)).bind fun n => tally? bound n rest

/-- A step is in bounds if what it comes to is. -/
theorem carry?_eq (bound n d : Nat) : carry? bound n d = within? bound (10 * n + d) := by
  unfold carry?
  by_cases htens : 10 * n < bound
  · rw [within?, if_pos htens, Option.bind_some]
  · have hsum : ¬10 * n + d < bound := by omega
    rw [within?, if_neg htens, within?, if_neg hsum, Option.bind_none]

/-- More digits never make a number smaller. -/
theorem le_ofDigitChars (n : Nat) (digits : List Char) : n ≤ Nat.ofDigitChars 10 digits n := by
  induction digits generalizing n with
  | nil => exact Nat.le_of_eq Nat.ofDigitChars_nil.symm
  | cons c rest ih =>
      rw [Nat.ofDigitChars_cons]
      exact Nat.le_trans (by omega) (ih _)

/-- Reading is in bounds all along if what it comes to is. -/
theorem tally?_eq (hn : n < bound) :
    tally? bound n digits = within? bound (Nat.ofDigitChars 10 digits n) := by
  induction digits generalizing n with
  | nil => rw [tally?, Nat.ofDigitChars_nil, within?, if_pos hn]
  | cons c rest ih =>
      rw [tally?, carry?_eq, Nat.ofDigitChars_cons]
      generalize 10 * n + (c.toNat - '0'.toNat) = next
      by_cases hnext : next < bound
      · rw [within?, if_pos hnext, Option.bind_some]
        exact ih hnext
      · have hend : ¬Nat.ofDigitChars 10 rest next < bound :=
          fun h => hnext (Nat.lt_of_le_of_lt (le_ofDigitChars next rest) h)
        rw [within?, if_neg hnext, Option.bind_none, within?, if_neg hend]

/-- A count may be read in a word. -/
theorem count?_eq_tally? (hbound : 0 < bound) (text : List Char) :
    count? bound text =
      if dropPlus (trim text) ≠ [] ∧ (dropPlus (trim text)).all Char.isDigit then
        tally? bound 0 (dropPlus (trim text))
      else none := by
  rw [tally?_eq hbound, count?, within?]
  generalize dropPlus (trim text) = digits
  simp only [ite_and]

end SymbolicSearch.Text
