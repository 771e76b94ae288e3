/-!
# Rounding of quotients

Values are exact quotients of natural numbers. This module rounds them to whole numbers and finds
the power of two or ten below them.

## Main definitions

* `Quotient.roundHalfEven` — the nearest whole number, ties to the even one.
* `Quotient.scale` — a quotient times a power of a base.
* `wholeLog` — the greatest power of a base that is not above a whole number.
* `Quotient.floorLog` — the greatest power of a base that is not above a quotient.
-/

namespace RecordStore.Decimal

structure Quotient where
  num : Nat
  den : Nat
  deriving Repr

/-- The whole number nearest to the quotient; a tie, halfway between the whole number below and
the one above, goes to the even neighbour. -/
def Quotient.roundHalfEven (q : Quotient) : Nat :=
  let whole := q.num / q.den
  let halfway := (2 * whole + 1) * q.den
  if 2 * q.num < halfway then whole
  else if halfway < 2 * q.num then whole + 1
  else whole + whole % 2

def Quotient.scale (q : Quotient) (base : Nat) : (exponent : Int) → Quotient
  | .ofNat e => ⟨q.num * Nat.pow base e, q.den⟩
  | .negSucc e => ⟨q.num, q.den * Nat.pow base (e + 1)⟩

/-- A number divided by the greatest power of a base that is not above it, and the exponent of
that power. The square of the base finds the exponent up to its last bit. -/
def splitPower (base n : Nat) : Nat × Nat :=
  if _h : 2 ≤ base ∧ base ≤ n then
    let (rest, exponent) := splitPower (base * base) n
    if rest < base then (rest, 2 * exponent) else (rest / base, 2 * exponent + 1)
  else (n, 0)
termination_by n + 1 - base
decreasing_by
  have : base * 2 ≤ base * base := Nat.mul_le_mul_left base (by omega)
  omega

/-- The greatest `e` with `base ^ e ≤ n`, for a base of at least two and a positive number. -/
def wholeLog (base n : Nat) : Nat := if base = 2 then n.log2 else (splitPower base n).2

theorem fst_splitPower (base n : Nat) :
    (splitPower base n).1 = n / Nat.pow base (splitPower base n).2 := by
  fun_induction splitPower base n with
  | case1 base h rest exponent hs hr ih =>
    simp only [hs, Nat.pow_eq] at ih
    simp only [Nat.pow_eq, ih, Nat.pow_mul, Nat.pow_two]
  | case2 base h rest exponent hs hr ih =>
    simp only [hs, Nat.pow_eq] at ih
    simp only [Nat.pow_eq, ih, Nat.div_div_eq_div_mul, Nat.pow_succ, Nat.pow_mul, Nat.pow_zero,
      Nat.one_mul]
  | case3 => simp

theorem fst_splitPower_lt {base n : Nat} (hb : 2 ≤ base) : (splitPower base n).1 < base := by
  fun_induction splitPower base n with
  | case1 base h rest exponent hs hr ih => exact hr
  | case2 base h rest exponent hs hr ih =>
    rw [hs] at ih
    exact Nat.div_lt_of_lt_mul (ih (Nat.le_trans hb (Nat.le_mul_of_pos_left base (by omega))))
  | case3 base h =>
    simp only
    omega

theorem fst_splitPower_pos (base : Nat) {n : Nat} (hn : 0 < n) : 0 < (splitPower base n).1 := by
  fun_induction splitPower base n with
  | case1 base h rest exponent hs hr ih =>
    rw [hs] at ih
    exact ih
  | case2 base h rest exponent hs hr ih =>
    exact Nat.div_pos (Nat.le_of_not_lt hr) (by omega)
  | case3 => exact hn

theorem pow_wholeLog_le (base : Nat) {n : Nat} (hn : 0 < n) :
    Nat.pow base (wholeLog base n) ≤ n := by
  unfold wholeLog
  split
  · rename_i hb
    rw [hb]
    exact Nat.log2_self_le (Nat.ne_of_gt hn)
  · have h := fst_splitPower_pos base hn
    rw [fst_splitPower] at h
    exact Nat.le_of_not_lt fun hlt => Nat.ne_of_gt h (Nat.div_eq_of_lt hlt)

theorem lt_pow_wholeLog_succ {base : Nat} (hb : 2 ≤ base) (n : Nat) :
    n < Nat.pow base (wholeLog base n + 1) := by
  unfold wholeLog
  split
  · rename_i hb
    rw [hb]
    exact Nat.lt_log2_self
  · have h := fst_splitPower_lt (n := n) hb
    rw [fst_splitPower] at h
    have hp : 0 < Nat.pow base (splitPower base n).2 := Nat.pow_pos (by omega)
    simpa only [Nat.pow_eq, Nat.pow_succ, Nat.mul_comm] using (Nat.div_lt_iff_lt_mul hp).1 h

/-- The greatest `e` with `base ^ e ≤ num / den`. The lengths of both numbers leave two
candidates. -/
def Quotient.floorLog (q : Quotient) (base : Nat) : Int :=
  let guess : Int := (wholeLog base q.num : Int) - (wholeLog base q.den : Int)
  let scaled := q.scale base (-guess)
  if scaled.den ≤ scaled.num then guess else guess - 1

end RecordStore.Decimal
