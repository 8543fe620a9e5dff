import FormatFuzz.Runtime
import Mathlib.Data.Rat.Floor
import Mathlib.Tactic.Linarith

/-!
# Remainders of generated programs

A remainder is what the division rounded down leaves. The machine's own division is rounded toward
zero; where the signs of its remainder and of the divisor differ, the divisor is added to it, and
the sum of two words of different signs is a word.
-/

set_option autoImplicit false

namespace FormatFuzz.Arithmetic

/-- `m` is what the division of `a` by `b`, rounded down, leaves. -/
structure FloorRemainder (a b m : Int) : Prop where
  value : m = a - b * ⌊(a : ℚ) / b⌋
  sign : m = 0 ∨ m.sign = b.sign
  small : |m| < |b|

section

variable (a b q m : Int)

theorem floor_of_pos (ha : b * q + m = a) (hb : 0 < b) (h0 : 0 ≤ m) (hm : m < b) :
    ⌊(a : ℚ) / b⌋ = q := by
  have hb' : (0 : ℚ) < b := by exact_mod_cast hb
  rw [Int.floor_eq_iff, le_div_iff₀ hb', div_lt_iff₀ hb']
  constructor
  · have h : q * b ≤ a := by linarith [mul_comm q b]
    exact_mod_cast h
  · have h : a < (q + 1) * b := by linarith [add_mul q 1 b, mul_comm q b]
    exact_mod_cast h

theorem floorRemainder_of_pos (ha : b * q + m = a) (hb : 0 < b) (h0 : 0 ≤ m) (hm : m < b) :
    FloorRemainder a b m where
  value := by
    rw [floor_of_pos a b q m ha hb h0 hm]
    omega
  sign := by
    rcases h0.eq_or_lt with h | h
    · exact .inl h.symm
    · exact .inr (by rw [Int.sign_eq_one_of_pos h, Int.sign_eq_one_of_pos hb])
  small := by
    rw [abs_of_nonneg h0, abs_of_pos hb]
    exact hm

theorem FloorRemainder.neg {a b m : Int} (h : FloorRemainder (-a) (-b) (-m)) :
    FloorRemainder a b m where
  value := by
    have hq : ((-a : Int) : ℚ) / ((-b : Int) : ℚ) = (a : ℚ) / b := by
      push_cast
      exact neg_div_neg_eq _ _
    have hv := h.value
    rw [hq, neg_mul] at hv
    omega
  sign := by
    have hs := h.sign
    rw [Int.sign_neg, Int.sign_neg] at hs
    omega
  small := by
    have hlt := h.small
    rwa [abs_neg, abs_neg] at hlt

theorem floorRemainder_of_neg (ha : b * q + m = a) (hb : b < 0) (h0 : m ≤ 0) (hm : b < m) :
    FloorRemainder a b m := by
  refine FloorRemainder.neg (floorRemainder_of_pos (-a) (-b) q (-m) ?_ ?_ ?_ ?_)
  · linarith [neg_mul b q]
  all_goals omega

end

section

variable (a b : Int64)

/-- The signs of the remainder toward zero and of the divisor differ. -/
def Crosses : Prop :=
  a % b ≠ 0 ∧ decide (a % b < 0) ≠ decide (b < 0)

theorem crosses_iff :
    Crosses a b ↔ (a % b).toInt ≠ 0 ∧ ¬ ((a % b).toInt < 0 ↔ b.toInt < 0) := by
  rw [Crosses, Ne, ← Int64.toInt_inj, Ne, decide_eq_decide, Int64.lt_iff_toInt_lt,
    Int64.lt_iff_toInt_lt, Int64.toInt_zero]

theorem mod_of_crosses (hb : b ≠ 0) (h : Crosses a b) : mod a b = a % b + b := by
  rw [mod, if_neg hb]
  exact if_pos h

theorem mod_of_not_crosses (hb : b ≠ 0) (h : ¬ Crosses a b) : mod a b = a % b := by
  rw [mod, if_neg hb]
  exact if_neg h

theorem toInt_add_of_crosses (h : Crosses a b) :
    (a % b + b).toInt = (a % b).toInt + b.toInt := by
  have hm := (a % b).le_toInt
  have hm' := (a % b).toInt_lt
  have hb := b.le_toInt
  have hb' := b.toInt_lt
  have hsigns := ((crosses_iff a b).mp h).2
  rw [Int64.toInt_add]
  exact Int.bmod_eq_of_le_mul_two (by omega) (by omega)

theorem tdiv_add_rem :
    b.toInt * a.toInt.tdiv b.toInt + (a % b).toInt = a.toInt := by
  rw [Int64.toInt_mod]
  exact Int.mul_tdiv_add_tmod a.toInt b.toInt

theorem natAbs_rem_lt (hb : b.toInt ≠ 0) : (a % b).toInt.natAbs < b.toInt.natAbs := by
  rw [Int64.toInt_mod, Int.natAbs_tmod]
  exact Nat.mod_lt _ (Int.natAbs_pos.mpr hb)

theorem floorRemainder_of_crosses (hb : b.toInt ≠ 0) (h : Crosses a b) :
    FloorRemainder a.toInt b.toInt (a % b + b).toInt := by
  have hdiv := tdiv_add_rem a b
  have hlt := natAbs_rem_lt a b hb
  obtain ⟨hne, hsigns⟩ := (crosses_iff a b).mp h
  have hstep : b.toInt * (a.toInt.tdiv b.toInt - 1) + ((a % b).toInt + b.toInt) = a.toInt := by
    rw [Int.mul_sub]
    omega
  rw [toInt_add_of_crosses a b h]
  rcases Int.lt_or_gt_of_ne hb with hb | hb
  · exact floorRemainder_of_neg _ _ _ _ hstep hb (by omega) (by omega)
  · exact floorRemainder_of_pos _ _ _ _ hstep hb (by omega) (by omega)

theorem floorRemainder_of_not_crosses (hb : b.toInt ≠ 0) (h : ¬ Crosses a b) :
    FloorRemainder a.toInt b.toInt (a % b).toInt := by
  have hdiv := tdiv_add_rem a b
  have hlt := natAbs_rem_lt a b hb
  rw [crosses_iff] at h
  rcases Int.lt_or_gt_of_ne hb with hb | hb
  · exact floorRemainder_of_neg _ _ _ _ hdiv hb (by omega) (by omega)
  · exact floorRemainder_of_pos _ _ _ _ hdiv hb (by omega) (by omega)

/-- The remainder of any two words is that of the division rounded down, and the divisor is added
only where the sum is a word. By zero it is zero. -/
theorem mod_floorRemainder :
    (b ≠ 0 → FloorRemainder a.toInt b.toInt (mod a b).toInt ∧
      (Crosses a b → mod a b = a % b + b ∧
        (a % b + b).toInt = (a % b).toInt + b.toInt)) ∧
      mod a 0 = 0 := by
  refine ⟨fun hb => ⟨?_, fun h => ?_⟩, rfl⟩
  · have hb' : b.toInt ≠ 0 := fun h => hb (Int64.toInt_inj.mp h)
    by_cases h : Crosses a b
    · rw [mod_of_crosses a b hb h]
      exact floorRemainder_of_crosses a b hb' h
    · rw [mod_of_not_crosses a b hb h]
      exact floorRemainder_of_not_crosses a b hb' h
  · exact ⟨mod_of_crosses a b hb h, toInt_add_of_crosses a b h⟩

end

theorem mod_floorRemainder_least :
    (Int64.minValue ≠ 0 ∧ Crosses 1 Int64.minValue ∧
      FloorRemainder 1 Int64.minValue.toInt (mod 1 Int64.minValue).toInt ∧
      (1 % Int64.minValue + Int64.minValue).toInt = 1 + Int64.minValue.toInt) ∧
    (-1 : Int64) ≠ 0 ∧
    FloorRemainder Int64.minValue.toInt (-1) (mod Int64.minValue (-1)).toInt := by
  have hleast : Int64.minValue ≠ 0 := by decide
  have hcrosses : Crosses 1 Int64.minValue := by
    unfold Crosses
    decide
  have hone := (mod_floorRemainder 1 Int64.minValue).1 hleast
  have hminus := (mod_floorRemainder Int64.minValue (-1)).1 (by decide)
  exact ⟨⟨hleast, hcrosses, hone.1, (hone.2 hcrosses).2⟩, by decide, hminus.1⟩

end FormatFuzz.Arithmetic
