/-
Whole numbers of a word can be read as floats. A text that is kept for later
is read number by number before anything is known of it, so what an oracle
may send in any order depends on it (`isReadable_ofNat`).

Nothing exact is needed here, only that no rounding step leaves the range of
the format: its exponents reach far beyond any number of a word.
-/
import SymbolicSearch.Json.Numeral

namespace SymbolicSearch

namespace Binary

theorem roundDiv_le (num den : Nat) : roundDiv num den ≤ num + 1 := by
  have hq : num / den ≤ num := Nat.div_le_self num den
  unfold roundDiv
  dsimp only
  split
  · omega
  · split <;> omega

/-- Dividing by one loses one power of two at most. -/
theorem log2Div_one (num : Nat) : -1 ≤ log2Div num 1 ∧ log2Div num 1 ≤ num.log2 := by
  have hone : Nat.log2 1 = 0 := by decide
  unfold log2Div
  dsimp only
  rw [hone]
  split <;> omega

theorem log2_le_of_lt {n k : Nat} (h : n < 1 <<< k) : n.log2 ≤ k := by
  by_cases hn : n = 0
  · rw [hn]
    exact Nat.zero_le k
  · rw [Nat.one_shiftLeft] at h
    exact Nat.le_of_lt ((Nat.log2_lt hn).2 h)

/-- The exponent that a whole number of units is rounded to. -/
def unitOf (num : Nat) (shift : Int) : Int :=
  max double.least (log2Div num 1 + shift - (double.width - 1))

theorem unitOf_le {num k : Nat} (hnum : num < 1 <<< k) (shift : Int) :
    unitOf num shift ≤ max (-1074) (k + shift - 52) := by
  have hlog := log2_le_of_lt hnum
  have hdiv := (log2Div_one num).2
  show max (-1074) (log2Div num 1 + shift - 52) ≤ _
  omega

theorem nearest_of_unitOf_lt {num : Nat} (hne : num ≠ 0) {shift : Int}
    (hunit : unitOf num shift < 971) :
    double.nearest num 1 shift =
      some ⟨roundDiv (num <<< (-(unitOf num shift - shift)).toNat)
        (1 <<< (unitOf num shift - shift).toNat), unitOf num shift⟩ := by
  have hgreatest : double.greatest = 971 := rfl
  rw [Format.nearest, if_neg hne]
  refine if_neg ?_
  rw [← unitOf, hgreatest]
  omega

/-- Far from the greatest exponent, rounding gives a number. -/
theorem nearest_eq_some {num k : Nat} (hnum : num < 1 <<< k) (shift : Int)
    (hshift : k + shift ≤ 1000) :
    ∃ m, double.nearest num 1 shift = some m ∧
      m.significand ≤ num <<< (shift - unitOf num shift).toNat + 1 ∧
      m.exponent ≤ unitOf num shift := by
  have hunit := unitOf_le hnum shift
  by_cases hzero : num = 0
  · refine ⟨⟨0, double.least⟩, by rw [Format.nearest, if_pos hzero], Nat.zero_le _, ?_⟩
    exact Int.le_max_left _ _
  · refine ⟨_, nearest_of_unitOf_lt hzero (by omega), ?_, Int.le_refl _⟩
    have hdown : -(unitOf num shift - shift) = shift - unitOf num shift := by omega
    rw [← hdown]
    exact roundDiv_le _ _

/-- A number of a word is rounded to something moderate. -/
theorem ofNat_eq_some {n : Nat} (hn : n < UInt64.size) :
    ∃ m, double.ofNat n = some m ∧ m.significand < 1 <<< 118 ∧ m.exponent ≤ 12 := by
  have hword : n < 1 <<< 64 := hn
  have hlow := (log2Div_one n).1
  have hhigh := unitOf_le hword 0
  have hunit : -53 ≤ unitOf n 0 := by
    show -53 ≤ max (-1074) (log2Div n 1 + 0 - 52)
    omega
  obtain ⟨m, hm, hsignificand, hexponent⟩ := nearest_eq_some hword 0 (by omega)
  have hshift : n <<< (0 - unitOf n 0).toNat ≤ n <<< 53 := by
    rw [Nat.shiftLeft_eq, Nat.shiftLeft_eq]
    exact Nat.mul_le_mul_left n (Nat.pow_le_pow_right (by decide) (by omega))
  rw [Nat.shiftLeft_eq n 53] at hshift
  exact ⟨m, hm, by omega, by omega⟩

end Binary

namespace Json.Numeral

open Binary

theorem scaled_ofNat {n : Nat} (hn : n < UInt64.size) : (ofNat n).scaled = (n, 0) := by
  have hclip : clip n = (n, 0) := by
    rw [clip]
    exact if_pos hn
  unfold scaled
  simp only [ofNat, hclip]
  rfl

/-- A number of a word can be read as a float, though it may be rounded. -/
theorem isReadable_ofNat {n : Nat} (hn : n < UInt64.size) : (ofNat n).isReadable = true := by
  obtain ⟨f, hf, hfs, hfe⟩ := ofNat_eq_some hn
  obtain ⟨t, ht, hts, hte⟩ := ofNat_eq_some (n := Nat.pow 10 0) (by decide)
  have hproduct : f.significand * t.significand < 1 <<< 236 := by
    have hlt : f.significand * t.significand < (1 <<< 118) * (1 <<< 118) :=
      Nat.mul_lt_mul'' hfs hts
    exact Nat.lt_of_lt_of_eq hlt (by decide)
  obtain ⟨m, hm, -⟩ := nearest_eq_some hproduct (f.exponent + t.exponent) (by omega)
  have hmul : mulTen f 0 = some m := by
    rw [mulTen, if_pos (Nat.zero_le topTen), tenTo, ht]
    exact hm
  have hread : (ofNat n).double? = some m := by
    unfold double?
    rw [scaled_ofNat hn]
    show (double.ofNat n).bind (fun f => mulTen f 0) = some m
    rw [hf, Option.bind_some, hmul]
  rw [isReadable, hread]
  rfl

end Json.Numeral

end SymbolicSearch
