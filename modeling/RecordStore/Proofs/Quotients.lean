import Mathlib.Algebra.Order.Field.Power
import Mathlib.Tactic.GCongr
import Mathlib.Tactic.Linarith
import Mathlib.Tactic.Positivity
import RecordStore.Decimal.Rounding

/-!
# Quotients as rational numbers

Scaling, rounding and the exponents of quotients are pinned by the rational number that a quotient
stands for.

## Main definitions

* `Quotient.toRat` — the rational number of a quotient.

## Main statements

* `Quotient.toRat_scale` — scaling multiplies by a power of the base.
* `Quotient.abs_sub_roundHalfEven_le` — rounding is off by one half at most.
* `Quotient.roundHalfEven_eq_iff` — the nearest whole number is rounded to, ties to even.
* `Quotient.floorLog_eq_iff` — the exponent of the power that is not above a quotient.
-/

namespace RecordStore.Decimal

namespace Quotient

variable {q : Quotient} {base : ℕ} {e : ℤ}

def toRat (q : Quotient) : ℚ := q.num / q.den

theorem toRat_natCast (n : ℕ) : toRat ⟨n, 1⟩ = n := by simp [toRat]

theorem num_pos_of_toRat_pos (h : 0 < q.toRat) : 0 < q.num := by
  rw [Nat.pos_iff_ne_zero]
  intro hn
  simp [toRat, hn] at h

theorem den_pos_of_toRat_pos (h : 0 < q.toRat) : 0 < q.den := by
  rw [Nat.pos_iff_ne_zero]
  intro hd
  simp [toRat, hd] at h

/-! ## Powers of a base -/

theorem toRat_scale (q : Quotient) (base : ℕ) (e : ℤ) :
    (q.scale base e).toRat = q.toRat * (base : ℚ) ^ e := by
  cases e with
  | ofNat e => simp [toRat, scale, div_mul_eq_mul_div]
  | negSucc e =>
    simp only [toRat, scale, Nat.pow_eq, Nat.cast_mul, Nat.cast_pow, zpow_negSucc]
    rw [div_mul_eq_div_div, div_eq_mul_inv _ ((base : ℚ) ^ (e + 1))]

theorem den_scale_pos (hb : 0 < base) (hd : 0 < q.den) (e : ℤ) : 0 < (q.scale base e).den := by
  cases e with
  | ofNat e => exact hd
  | negSucc e => exact Nat.mul_pos hd (Nat.pow_pos hb)

theorem le_toRat_iff (hd : 0 < q.den) (n : ℕ) : (n : ℚ) ≤ q.toRat ↔ n * q.den ≤ q.num := by
  rw [toRat, le_div_iff₀ (by exact_mod_cast hd)]
  norm_cast

/-! ## The nearest whole number -/

theorem abs_sub_roundHalfEven_le (hd : 0 < q.den) : |q.toRat - q.roundHalfEven| ≤ 1 / 2 := by
  have hdiv := Nat.div_add_mod q.num q.den
  have hmod := Nat.mod_lt q.num hd
  have hden : (0 : ℚ) < q.den := by exact_mod_cast hd
  -- multiplied by the denominator, both bounds are about natural numbers
  have hbounds : 2 * q.num ≤ (2 * q.roundHalfEven + 1) * q.den ∧
      2 * q.roundHalfEven * q.den ≤ 2 * q.num + q.den := by
    simp only [roundHalfEven]
    have hparity := Nat.mod_two_eq_zero_or_one (q.num / q.den)
    generalize q.num / q.den = whole at *
    generalize q.num % q.den = rest at *
    split
    · constructor <;> nlinarith
    · split
      · constructor <;> nlinarith
      · rcases hparity with hp | hp <;> rw [hp] <;> constructor <;> nlinarith
  obtain ⟨hupper, hlower⟩ := hbounds
  have hupper : (2 * q.num : ℚ) ≤ (2 * q.roundHalfEven + 1) * q.den := by exact_mod_cast hupper
  have hlower : (2 * q.roundHalfEven * q.den : ℚ) ≤ 2 * q.num + q.den := by exact_mod_cast hlower
  rw [abs_le, toRat]
  constructor
  · rw [neg_le_sub_iff_le_add, ← sub_le_iff_le_add, le_div_iff₀ hden]
    linarith
  · rw [sub_le_iff_le_add, div_le_iff₀ hden]
    linarith

/-- A whole number that is less than one half away is the one that is rounded to. -/
theorem roundHalfEven_eq {n : ℕ} (hd : 0 < q.den) (h : |q.toRat - n| < 1 / 2) :
    q.roundHalfEven = n := by
  have hround := abs_sub_roundHalfEven_le hd
  have hlt : |(q.roundHalfEven : ℚ) - n| < 1 := by
    calc |(q.roundHalfEven : ℚ) - n|
        = |(q.toRat - n) - (q.toRat - q.roundHalfEven)| := by rw [sub_sub_sub_cancel_left]
      _ ≤ |q.toRat - n| + |q.toRat - q.roundHalfEven| := abs_sub _ _
      _ < 1 := by linarith
  have hlt : |(q.roundHalfEven : ℤ) - n| < 1 := by exact_mod_cast hlt
  have := Int.abs_lt_one_iff.1 hlt
  omega

theorem even_roundHalfEven (hd : 0 < q.den) (h : |q.toRat - q.roundHalfEven| = 1 / 2) :
    Even q.roundHalfEven := by
  have hdiv := Nat.div_add_mod q.num q.den
  have hmod := Nat.mod_lt q.num hd
  have hden : (0 : ℚ) < q.den := by exact_mod_cast hd
  have htie : 2 * q.num = (2 * q.roundHalfEven + 1) * q.den ∨
      2 * q.num + q.den = 2 * q.roundHalfEven * q.den := by
    rw [toRat] at h
    rcases (abs_eq (by norm_num)).1 h with h | h
    · left
      rw [sub_eq_iff_eq_add, div_eq_iff hden.ne'] at h
      have : (2 * q.num : ℚ) = (2 * q.roundHalfEven + 1) * q.den := by linarith
      exact_mod_cast this
    · right
      rw [sub_eq_iff_eq_add, div_eq_iff hden.ne'] at h
      have : (2 * q.num + q.den : ℚ) = 2 * q.roundHalfEven * q.den := by linarith
      exact_mod_cast this
  simp only [roundHalfEven] at htie ⊢
  have hparity := Nat.mod_two_eq_zero_or_one (q.num / q.den)
  generalize q.num / q.den = whole at *
  generalize q.num % q.den = rest at *
  split at htie
  · rename_i hlt
    rcases htie with htie | htie <;> nlinarith
  · rename_i hlow
    rw [if_neg hlow]
    split at htie
    · rename_i hlt
      rcases htie with htie | htie <;> nlinarith
    · rename_i hhigh
      rw [if_neg hhigh, Nat.even_iff]
      omega

/-- The nearest whole number is rounded to, and the even one of two that are as near. -/
theorem roundHalfEven_eq_of_even {n : ℕ} (hd : 0 < q.den) (h : |q.toRat - n| ≤ 1 / 2)
    (he : |q.toRat - n| = 1 / 2 → Even n) : q.roundHalfEven = n := by
  rcases h.lt_or_eq with hlt | heq
  · exact roundHalfEven_eq hd hlt
  by_contra hne
  have hround := abs_sub_roundHalfEven_le hd
  have hone : (1 : ℚ) ≤ |(q.roundHalfEven : ℚ) - n| := by
    exact_mod_cast Int.one_le_abs (show (q.roundHalfEven : ℤ) - n ≠ 0 by omega)
  have hle : |(q.roundHalfEven : ℚ) - n| ≤ |q.toRat - n| + |q.toRat - q.roundHalfEven| := by
    rw [← sub_sub_sub_cancel_left]
    exact abs_sub _ _
  have hboth : |(q.roundHalfEven : ℤ) - n| ≤ 1 := by
    have : |(q.roundHalfEven : ℚ) - n| ≤ 1 := by linarith
    exact_mod_cast this
  obtain ⟨a, ha⟩ := he heq
  obtain ⟨b, hb⟩ := even_roundHalfEven hd (by linarith)
  rw [abs_le] at hboth
  omega

/-- Rounding is of the rational number alone. -/
theorem roundHalfEven_congr {q' : Quotient} (hd : 0 < q.den) (hd' : 0 < q'.den)
    (h : q.toRat = q'.toRat) : q.roundHalfEven = q'.roundHalfEven := by
  refine roundHalfEven_eq_of_even hd ?_ ?_ <;> rw [h]
  · exact abs_sub_roundHalfEven_le hd'
  · exact even_roundHalfEven hd'

/-- The number that a quotient is rounded to is pinned by its distance: it is nearest, and even if
another one is as near. -/
theorem roundHalfEven_eq_iff {n : ℕ} (hd : 0 < q.den) :
    q.roundHalfEven = n ↔ ∀ other : ℕ, |q.toRat - n| ≤ |q.toRat - other| ∧
      (|q.toRat - other| = |q.toRat - n| → other = n ∨ Even n) := by
  have hround := abs_sub_roundHalfEven_le hd
  constructor
  · rintro rfl other
    by_cases hne : other = q.roundHalfEven
    · exact ⟨by rw [hne], fun _ => .inl hne⟩
    have hone : (1 : ℚ) ≤ |q.toRat - other| + |q.toRat - q.roundHalfEven| := by
      calc (1 : ℚ) ≤ |(q.roundHalfEven : ℚ) - other| := by
            exact_mod_cast Int.one_le_abs (show (q.roundHalfEven : ℤ) - other ≠ 0 by omega)
        _ = |(q.toRat - other) - (q.toRat - q.roundHalfEven)| := by rw [sub_sub_sub_cancel_left]
        _ ≤ _ := abs_sub _ _
    exact ⟨by linarith, fun htie => .inr (even_roundHalfEven hd (by linarith))⟩
  · intro h
    obtain ⟨hle, heven⟩ := h q.roundHalfEven
    by_cases hn : q.roundHalfEven = n
    · exact hn
    · refine roundHalfEven_eq_of_even hd (hle.trans hround) fun htie => ?_
      exact (heven (le_antisymm (by linarith) hle)).resolve_left hn

/-! ## The power of a base that is not above a quotient -/

theorem zpow_wholeLog_le (base : ℕ) {n : ℕ} (hn : 0 < n) :
    (base : ℚ) ^ (wholeLog base n : ℤ) ≤ n := by
  have := pow_wholeLog_le base hn
  rw [zpow_natCast]
  exact_mod_cast this

theorem lt_zpow_wholeLog_succ (hb : 2 ≤ base) (n : ℕ) :
    (n : ℚ) < (base : ℚ) ^ (wholeLog base n + 1 : ℤ) := by
  have := lt_pow_wholeLog_succ hb n
  rw [show (wholeLog base n + 1 : ℤ) = ((wholeLog base n + 1 : ℕ) : ℤ) by rfl, zpow_natCast]
  exact_mod_cast this

/-- The power of the base that `floorLog` finds is not above the quotient, and the next one is. -/
theorem zpow_floorLog (hb : 2 ≤ base) (hq : 0 < q.toRat) :
    (base : ℚ) ^ q.floorLog base ≤ q.toRat ∧ q.toRat < (base : ℚ) ^ (q.floorLog base + 1) := by
  have hn := num_pos_of_toRat_pos hq
  have hd := den_pos_of_toRat_pos hq
  have hbase : (0 : ℚ) < base := by exact_mod_cast (by omega : 0 < base)
  have hden : (0 : ℚ) < q.den := by exact_mod_cast hd
  have hguess : q.toRat < (base : ℚ) ^ ((wholeLog base q.num : ℤ) - wholeLog base q.den + 1) ∧
      (base : ℚ) ^ ((wholeLog base q.num : ℤ) - wholeLog base q.den - 1) ≤ q.toRat := by
    have hnum := zpow_wholeLog_le base hn
    have hnum' := lt_zpow_wholeLog_succ hb q.num
    have hden' := zpow_wholeLog_le base hd
    have hden'' := lt_zpow_wholeLog_succ hb q.den
    constructor
    · rw [toRat, div_lt_iff₀ hden]
      refine hnum'.trans_le ?_
      calc (base : ℚ) ^ (wholeLog base q.num + 1 : ℤ)
          = (base : ℚ) ^ ((wholeLog base q.num : ℤ) - wholeLog base q.den + 1) *
              (base : ℚ) ^ (wholeLog base q.den : ℤ) := by
            rw [← zpow_add₀ hbase.ne']
            congr 1
            omega
        _ ≤ _ := by gcongr
    · rw [toRat, le_div_iff₀ hden]
      refine le_trans ?_ hnum
      calc (base : ℚ) ^ ((wholeLog base q.num : ℤ) - wholeLog base q.den - 1) * q.den
          ≤ (base : ℚ) ^ ((wholeLog base q.num : ℤ) - wholeLog base q.den - 1) *
              (base : ℚ) ^ (wholeLog base q.den + 1 : ℤ) := by gcongr
        _ = _ := by
            rw [← zpow_add₀ hbase.ne']
            congr 1
            omega
  simp only [floorLog]
  generalize (wholeLog base q.num : ℤ) - wholeLog base q.den = guess at *
  have hscaled : (q.scale base (-guess)).den ≤ (q.scale base (-guess)).num ↔
      (base : ℚ) ^ guess ≤ q.toRat := by
    have := le_toRat_iff (den_scale_pos (by omega : 0 < base) hd (-guess)) 1
    rw [Nat.one_mul, Nat.cast_one, toRat_scale, zpow_neg, ← div_eq_mul_inv,
      one_le_div (zpow_pos hbase guess)] at this
    exact this.symm
  split
  · rename_i h
    exact ⟨hscaled.1 h, hguess.1⟩
  · rename_i h
    rw [hscaled, not_le] at h
    exact ⟨hguess.2, by rwa [sub_add_cancel]⟩

/-- The exponent of the power that is not above a quotient is pinned by the power and the next
one. -/
theorem floorLog_eq_iff (hb : 2 ≤ base) (hq : 0 < q.toRat) :
    q.floorLog base = e ↔ (base : ℚ) ^ e ≤ q.toRat ∧ q.toRat < (base : ℚ) ^ (e + 1) := by
  have hone : (1 : ℚ) < base := by exact_mod_cast (by omega : 1 < base)
  constructor
  · rintro rfl
    exact zpow_floorLog hb hq
  · rintro ⟨hlow, hhigh⟩
    obtain ⟨hlow', hhigh'⟩ := zpow_floorLog hb hq
    have h₁ := (zpow_lt_zpow_iff_right₀ hone).1 (hlow.trans_lt hhigh')
    have h₂ := (zpow_lt_zpow_iff_right₀ hone).1 (hlow'.trans_lt hhigh)
    omega

theorem floorLog_congr {q' : Quotient} (hb : 2 ≤ base) (hq : 0 < q.toRat)
    (h : q.toRat = q'.toRat) : q.floorLog base = q'.floorLog base := by
  rw [floorLog_eq_iff hb hq, h]
  exact zpow_floorLog hb (h ▸ hq)

end Quotient

end RecordStore.Decimal
