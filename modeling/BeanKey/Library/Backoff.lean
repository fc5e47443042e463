import Mathlib.Algebra.BigOperators.Field
import Mathlib.Algebra.Order.BigOperators.Group.Finset
import Mathlib.Algebra.Order.Field.Basic
import Mathlib.Data.Rat.Cast.Order
import Mathlib.Tactic.FieldSimp
import Mathlib.Tactic.Linarith
import Mathlib.Tactic.Positivity
import Mathlib.Tactic.Ring

/-! Interpolated distributions: each order keeps a part of its mass and hands the rest to the next
lower order. -/
namespace Backoff
variable {ι K : Type*} [Field K] [LinearOrder K] [IsStrictOrderedRing K]

/-- What an order gives each outcome itself, and the weight of the orders below. -/
structure Level (ι K : Type*) where
  alpha : ι → K
  gamma : K

/-- The order and the weight it hands down are a whole. -/
structure Level.Balanced (level : Level ι K) (outcomes : Finset ι) : Prop where
  alpha_nonneg : ∀ outcome ∈ outcomes, 0 ≤ level.alpha outcome
  gamma_nonneg : 0 ≤ level.gamma
  whole : ∑ outcome ∈ outcomes, level.alpha outcome + level.gamma = 1

/-- The orders from the highest, over a distribution below all of them. -/
def mixture (base : K) : List (Level ι K) → ι → K
  | [], _ => base
  | level :: levels, outcome => level.alpha outcome + level.gamma * mixture base levels outcome

theorem mixture_nonneg {outcomes : Finset ι} {base : K} (hbase : 0 ≤ base)
    {levels : List (Level ι K)} (h : ∀ level ∈ levels, level.Balanced outcomes) :
    ∀ outcome ∈ outcomes, 0 ≤ mixture base levels outcome := by
  induction levels with
  | nil => exact fun _ _ => hbase
  | cons level levels ih =>
    intro outcome hin
    have hfirst := h level List.mem_cons_self
    have hrest := ih (fun other hother => h other (List.mem_cons_of_mem _ hother)) outcome hin
    exact add_nonneg (hfirst.alpha_nonneg outcome hin) (mul_nonneg hfirst.gamma_nonneg hrest)

omit [IsStrictOrderedRing K] in
/-- Whatever an order does not keep arrives below it, so nothing is lost. -/
theorem mixture_sum {outcomes : Finset ι} {base : K} (hbase : outcomes.card * base = 1)
    {levels : List (Level ι K)} (h : ∀ level ∈ levels, level.Balanced outcomes) :
    ∑ outcome ∈ outcomes, mixture base levels outcome = 1 := by
  induction levels with
  | nil => simpa [mixture] using hbase
  | cons level levels ih =>
    have hrest := ih fun other hother => h other (List.mem_cons_of_mem _ hother)
    simp only [mixture]
    rw [Finset.sum_add_distrib, ← Finset.mul_sum, hrest, mul_one]
    exact (h level List.mem_cons_self).whole

omit [LinearOrder K] [IsStrictOrderedRing K] in
/-- The mass is gathered from the highest order down, with the weight that is left. -/
theorem foldl_eq_mixture (base : K) (levels : List (Level ι K)) (outcome : ι)
    (gathered weight : K) :
    let (probability, coefficient) := levels.foldl
      (fun (probability, coefficient) level =>
        (probability + level.alpha outcome * coefficient, coefficient * level.gamma))
      (gathered, weight)
    probability + coefficient * base = gathered + weight * mixture base levels outcome := by
  induction levels generalizing gathered weight with
  | nil => rfl
  | cons level levels ih =>
    refine (ih (gathered + level.alpha outcome * weight) (weight * level.gamma)).trans ?_
    rw [mixture]
    ring

/-! ### Discounted counts -/

/-- Every count that is there loses `discount`, which goes to the orders below. -/
def discounted (counts : ι → ℕ) (discount : K) (total distinct : ℕ) : Level ι K where
  alpha outcome := if total = 0 then 0 else max ((counts outcome : K) - discount) 0 / total
  gamma := if total = 0 then 1 else discount * distinct / total

theorem max_discounted {discount : K} (hzero : 0 ≤ discount) {count : ℕ}
    (hleast : count ≠ 0 → discount ≤ count) :
    max ((count : K) - discount) 0 = count - if count = 0 then 0 else discount := by
  by_cases hcount : count = 0
  · subst hcount
    simpa using hzero
  · rw [if_neg hcount, max_eq_left (sub_nonneg.mpr (hleast hcount))]

/-- What the counts lose is the discount of each that is there. -/
theorem sum_discounted {outcomes : Finset ι} {counts : ι → ℕ} {discount : K}
    (hzero : 0 ≤ discount) (hleast : ∀ outcome, counts outcome ≠ 0 → discount ≤ counts outcome) :
    ∑ outcome ∈ outcomes, max ((counts outcome : K) - discount) 0 =
      (∑ outcome ∈ outcomes, counts outcome : ℕ) -
        discount * (outcomes.filter fun outcome => counts outcome ≠ 0).card := by
  have hlost : ∑ outcome ∈ outcomes, (if counts outcome = 0 then 0 else discount) =
      discount * (outcomes.filter fun outcome => counts outcome ≠ 0).card := by
    rw [Finset.sum_ite, Finset.sum_const_zero, zero_add, Finset.sum_const, nsmul_eq_mul, mul_comm]
  rw [← hlost, Nat.cast_sum, ← Finset.sum_sub_distrib]
  exact Finset.sum_congr rfl fun outcome _ => max_discounted hzero (hleast outcome)

theorem discounted_balanced {outcomes : Finset ι} {counts : ι → ℕ} {discount : K}
    {total distinct : ℕ} (hzero : 0 ≤ discount)
    (hleast : ∀ outcome, counts outcome ≠ 0 → discount ≤ counts outcome)
    (htotal : total = ∑ outcome ∈ outcomes, counts outcome)
    (hdistinct : distinct = (outcomes.filter fun outcome => counts outcome ≠ 0).card) :
    (discounted counts discount total distinct).Balanced outcomes where
  alpha_nonneg outcome _ := by
    unfold discounted
    dsimp only
    split
    · exact le_rfl
    · positivity
  gamma_nonneg := by
    unfold discounted
    dsimp only
    split
    · exact zero_le_one
    · positivity
  whole := by
    unfold discounted
    dsimp only
    by_cases hnone : total = 0
    · simp [hnone]
    · have hpos : (total : K) ≠ 0 := Nat.cast_ne_zero.mpr hnone
      simp only [if_neg hnone]
      rw [← Finset.sum_div, ← add_div, sum_discounted hzero hleast, ← htotal, ← hdistinct,
        sub_add_cancel, div_self hpos]

end Backoff
