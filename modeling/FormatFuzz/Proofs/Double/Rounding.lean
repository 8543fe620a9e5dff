import FormatFuzz.Double.Shortest
import Mathlib.Data.Rat.Lemmas
import Mathlib.Algebra.Order.Field.Rat
import Mathlib.Algebra.Order.Field.Power
import Mathlib.Tactic.Linarith
import Mathlib.Tactic.NormNum
import Mathlib.Tactic.Positivity
import Mathlib.Tactic.FieldSimp
import Mathlib.Tactic.Ring

/-!
# Rounding to a double

The interval of a double holds the reals that round to it: whatever fraction lies there, the nearest
double of it is the one the interval belongs to. All of it is arithmetic of rational numbers, with
powers of two and ten to integer exponents.
-/

set_option autoImplicit false

namespace FormatFuzz.Double

def Ratio.value (r : Ratio) : ℚ := r.num / r.den

theorem two_zpow_pos (q : ℤ) : (0 : ℚ) < 2 ^ q := by positivity

theorem ten_zpow_pos (t : ℤ) : (0 : ℚ) < 10 ^ t := by positivity

theorem pow_toNat (b : ℕ) (q : ℤ) (h : 0 ≤ q) : ((b.pow q.toNat : ℕ) : ℚ) = (b : ℚ) ^ q := by
  obtain ⟨n, rfl⟩ := Int.eq_ofNat_of_zero_le h
  simp

theorem pow_neg_toNat (b : ℕ) (q : ℤ) (h : ¬ 0 ≤ q) :
    ((b.pow (-q).toNat : ℕ) : ℚ) = ((b : ℚ) ^ q)⁻¹ := by
  rw [pow_toNat b (-q) (by omega), zpow_neg]

theorem binaryRatio_value (n : ℕ) (q : ℤ) : (binaryRatio n q).value = n * 2 ^ q := by
  unfold binaryRatio Ratio.value
  split
  next h =>
    simp only [Nat.cast_mul]
    rw [pow_toNat 2 q h]
    simp
  next h =>
    simp only
    rw [pow_neg_toNat 2 q h]
    simp

theorem decimalRatio_value (n : ℕ) (t : ℤ) : (decimalRatio n t).value = n * 10 ^ t := by
  unfold decimalRatio Ratio.value
  split
  next h =>
    simp only [Nat.cast_mul]
    rw [pow_toNat 10 t h]
    simp
  next h =>
    simp only
    rw [pow_neg_toNat 10 t h]
    simp

theorem shift_value (r : Ratio) (t : ℤ) : (r.shift t).value = r.value / 10 ^ t := by
  unfold Ratio.shift Ratio.value
  split
  next h =>
    simp only [Nat.cast_mul]
    rw [pow_toNat 10 t h]
    simp [div_mul_eq_div_div]
  next h =>
    simp only [Nat.cast_mul]
    rw [pow_neg_toNat 10 t h]
    simp only [Nat.cast_ofNat]
    ring

theorem scaled_value (num den : ℕ) (q : ℤ) :
    ((scaled num den q).1 : ℚ) / (scaled num den q).2 = num / den / 2 ^ q := by
  unfold scaled
  split
  next h =>
    simp only [Nat.cast_mul]
    rw [pow_toNat 2 q h]
    simp [div_mul_eq_div_div]
  next h =>
    simp only [Nat.cast_mul]
    rw [pow_neg_toNat 2 q h]
    simp only [Nat.cast_ofNat]
    ring

theorem pow_pos_nat (b n : ℕ) (h : 0 < b) : 0 < b.pow n := Nat.pow_pos h

theorem binaryRatio_den (n : ℕ) (q : ℤ) : 0 < (binaryRatio n q).den := by
  unfold binaryRatio
  split
  · simp
  · exact pow_pos_nat 2 _ (by omega)

theorem decimalRatio_den (n : ℕ) (t : ℤ) : 0 < (decimalRatio n t).den := by
  unfold decimalRatio
  split
  · simp
  · exact pow_pos_nat 10 _ (by omega)

theorem shift_den (r : Ratio) (t : ℤ) (h : 0 < r.den) : 0 < (r.shift t).den := by
  unfold Ratio.shift
  split
  · exact Nat.mul_pos h (pow_pos_nat 10 _ (by omega))
  · exact h

theorem scaled_den (num den : ℕ) (q : ℤ) (h : 0 < den) : 0 < (scaled num den q).2 := by
  unfold scaled
  split
  · exact Nat.mul_pos h (pow_pos_nat 2 _ (by omega))
  · exact h

theorem Ratio.le_iff (a b : Ratio) (ha : 0 < a.den) (hb : 0 < b.den) :
    a.le b = true ↔ a.value ≤ b.value := by
  have ha' : (0 : ℚ) < a.den := by exact_mod_cast ha
  have hb' : (0 : ℚ) < b.den := by exact_mod_cast hb
  rw [Ratio.le, decide_eq_true_eq, Ratio.value, Ratio.value, div_le_div_iff₀ ha' hb']
  exact_mod_cast Iff.rfl

theorem Ratio.lt_iff (a b : Ratio) (ha : 0 < a.den) (hb : 0 < b.den) :
    a.lt b = true ↔ a.value < b.value := by
  have ha' : (0 : ℚ) < a.den := by exact_mod_cast ha
  have hb' : (0 : ℚ) < b.den := by exact_mod_cast hb
  rw [Ratio.lt, decide_eq_true_eq, Ratio.value, Ratio.value, div_lt_div_iff₀ ha' hb']
  exact_mod_cast Iff.rfl

theorem floor_bounds (num den : ℕ) (h : 0 < den) :
    ((num / den : ℕ) : ℚ) ≤ (num : ℚ) / den ∧ (num : ℚ) / den < ((num / den : ℕ) : ℚ) + 1 := by
  have h' : (0 : ℚ) < den := by exact_mod_cast h
  rw [le_div_iff₀ h', div_lt_iff₀ h']
  have hd := Nat.div_add_mod num den
  have hm := Nat.mod_lt num h
  constructor
  · exact_mod_cast Nat.div_mul_le_self num den
  · have : num < (num / den + 1) * den := by
      calc num = den * (num / den) + num % den := hd.symm
        _ < den * (num / den) + den := by omega
        _ = (num / den + 1) * den := by ring
    exact_mod_cast this

/-- A quotient less than a half away from a number is rounded to it, and so is one exactly a half
away if the number is even. -/
theorem roundDiv_eq (num den m : ℕ) (hd : 0 < den)
    (hlo : (m : ℚ) - 1 / 2 ≤ (num : ℚ) / den) (hhi : (num : ℚ) / den ≤ m + 1 / 2)
    (htie : m % 2 = 0 ∨ ((m : ℚ) - 1 / 2 < (num : ℚ) / den ∧ (num : ℚ) / den < m + 1 / 2)) :
    roundDiv num den = m := by
  have h' : (0 : ℚ) < den := by exact_mod_cast hd
  rw [le_div_iff₀ h'] at hlo
  rw [div_le_iff₀ h'] at hhi
  rw [lt_div_iff₀ h', div_lt_iff₀ h'] at htie
  -- everything over the integers
  have lo : (2 * m - 1 : ℤ) * den ≤ 2 * num := by
    have : ((2 * m - 1 : ℤ) * den : ℚ) ≤ 2 * num := by push_cast; linarith
    exact_mod_cast this
  have hi : (2 * num : ℤ) ≤ (2 * m + 1) * den := by
    have : (2 * num : ℚ) ≤ ((2 * m + 1 : ℤ) * den : ℚ) := by push_cast; linarith
    exact_mod_cast this
  have tie : m % 2 = 0 ∨ ((2 * m - 1 : ℤ) * den < 2 * num ∧ (2 * num : ℤ) < (2 * m + 1) * den) := by
    refine htie.imp_right fun ⟨h₁, h₂⟩ => ⟨?_, ?_⟩
    · have : ((2 * m - 1 : ℤ) * den : ℚ) < 2 * num := by push_cast; linarith
      exact_mod_cast this
    · have : (2 * num : ℚ) < ((2 * m + 1 : ℤ) * den : ℚ) := by push_cast; linarith
      exact_mod_cast this
  have hdm := Nat.div_add_mod num den
  have hlt := Nat.mod_lt num hd
  unfold roundDiv
  generalize num / den = f at hdm ⊢
  generalize num % den = r at hdm hlt ⊢
  have hnum : (num : ℤ) = den * f + r := by exact_mod_cast hdm.symm
  have hcases : f = m ∨ f + 1 = m := by
    have h₁ : (f : ℤ) < m + 1 := by
      by_contra hc
      have : (den : ℤ) * (m + 1) ≤ den * f := by
        apply mul_le_mul_of_nonneg_left <;> omega
      nlinarith
    have h₂ : (m : ℤ) - 1 ≤ f := by
      by_contra hc
      have : (den : ℤ) * f ≤ den * (m - 2) := by
        apply mul_le_mul_of_nonneg_left <;> omega
      nlinarith
    omega
  rcases hcases with rfl | rfl
  · have hr : (2 * r : ℤ) ≤ den := by nlinarith
    have : f % 2 = 0 ∨ 2 * r < den := by
      refine tie.imp_right fun ⟨_, h₂⟩ => ?_
      have : (2 * r : ℤ) < den := by nlinarith
      exact_mod_cast this
    simp only
    split
    · rfl
    · split
      · omega
      · omega
  · push_cast at lo hi tie
    have hr : (den : ℤ) ≤ 2 * r := by nlinarith
    have : (f + 1) % 2 = 0 ∨ den < 2 * r := by
      refine tie.imp_right fun ⟨h₁, _⟩ => ?_
      have : (den : ℤ) < 2 * r := by nlinarith
      exact_mod_cast this
    simp only
    split
    · omega
    · split
      · rfl
      · omega

/-- A rational number has its last mantissa bit at `2 ^ q`: it has fifty-three bits from there, or
`q` is the least exponent there is and it has no more. -/
structure LastBit (v : ℚ) (q : ℤ) : Prop where
  least : -1074 ≤ q
  below : v < 2 ^ (q + 53)
  above : 2 ^ (q + 52) ≤ v ∨ q = -1074

theorem LastBit.le (v : ℚ) (q e : ℤ) (hq : LastBit v q) (he : LastBit v e) : q ≤ e := by
  by_contra h
  have hlt : (2 : ℚ) ^ (q + 52) ≤ v := hq.above.resolve_right (by have := he.least; omega)
  have hmono : (2 : ℚ) ^ (e + 53) ≤ 2 ^ (q + 52) := zpow_le_zpow_right₀ (by norm_num) (by omega)
  exact absurd he.below (not_lt.mpr (hmono.trans hlt))

theorem log2_bounds (n : ℕ) (h : 0 < n) : (2 : ℚ) ^ (n.log2 : ℤ) ≤ n ∧ (n : ℚ) < 2 ^ (n.log2 + 1 : ℤ) := by
  constructor
  · rw [zpow_natCast]
    exact_mod_cast Nat.log2_self_le h.ne'
  · have : n < 2 ^ (n.log2 + 1) := Nat.lt_log2_self
    exact_mod_cast this

/-- The bit lengths of numerator and denominator give the size of a quotient up to a factor of
two on either side. -/
theorem log2_quotient (num den : ℕ) (hn : 0 < num) (hd : 0 < den) :
    (2 : ℚ) ^ ((num.log2 : ℤ) - den.log2 - 1) < num / den ∧
      (num : ℚ) / den < 2 ^ ((num.log2 : ℤ) - den.log2 + 1) := by
  have hd' : (0 : ℚ) < den := by exact_mod_cast hd
  obtain ⟨hn₁, hn₂⟩ := log2_bounds num hn
  obtain ⟨hd₁, hd₂⟩ := log2_bounds den hd
  rw [lt_div_iff₀ hd', div_lt_iff₀ hd']
  constructor
  · calc (2 : ℚ) ^ ((num.log2 : ℤ) - den.log2 - 1) * den
        < 2 ^ ((num.log2 : ℤ) - den.log2 - 1) * 2 ^ (den.log2 + 1 : ℤ) :=
          mul_lt_mul_of_pos_left hd₂ (two_zpow_pos _)
      _ = 2 ^ (num.log2 : ℤ) := by rw [← zpow_add₀ (by norm_num)]; congr 1; ring
      _ ≤ num := hn₁
  · calc (num : ℚ) < 2 ^ (num.log2 + 1 : ℤ) := hn₂
      _ = 2 ^ ((num.log2 : ℤ) - den.log2 + 1) * 2 ^ (den.log2 : ℤ) := by
          rw [← zpow_add₀ (by norm_num)]; congr 1; ring
      _ ≤ 2 ^ ((num.log2 : ℤ) - den.log2 + 1) * den :=
          mul_le_mul_of_nonneg_left hd₁ (two_zpow_pos _).le

theorem le_scaled_iff (num den : ℕ) (hd : 0 < den) (q : ℤ) :
    2 * fractionSpan ≤ (scaled num den q).1 / (scaled num den q).2 ↔
      (2 : ℚ) ^ (q + 53) ≤ num / den := by
  have hs := scaled_den num den q hd
  have hs' : (0 : ℚ) < (scaled num den q).2 := by exact_mod_cast hs
  have h53 : ((2 * fractionSpan : ℕ) : ℚ) = 2 ^ (53 : ℤ) := by norm_num [fractionSpan]
  rw [Nat.le_div_iff_mul_le hs]
  calc 2 * fractionSpan * (scaled num den q).2 ≤ (scaled num den q).1
      ↔ ((2 * fractionSpan : ℕ) : ℚ) * (scaled num den q).2 ≤ (scaled num den q).1 := by
        exact_mod_cast Iff.rfl
    _ ↔ (2 : ℚ) ^ (53 : ℤ) ≤ num / den / 2 ^ q := by
        rw [h53, ← scaled_value, le_div_iff₀ hs']
    _ ↔ (2 : ℚ) ^ (q + 53) ≤ num / den := by
        rw [le_div_iff₀ (two_zpow_pos q), ← zpow_add₀ (by norm_num), add_comm]

theorem lastBit_spec (num den : ℕ) (hn : 0 < num) (hd : 0 < den) :
    LastBit ((num : ℚ) / den) (lastBit num den) := by
  obtain ⟨hlo, hhi⟩ := log2_quotient num den hn hd
  unfold lastBit
  simp only
  generalize hq : max ((num.log2 : ℤ) - den.log2 - 53) (-1074) = q
  split
  next h =>
    rw [le_scaled_iff num den hd] at h
    refine ⟨by omega, hhi.trans_le ?_, .inl ?_⟩
    · exact zpow_le_zpow_right₀ (by norm_num) (by omega)
    · rwa [show q + 1 + 52 = q + 53 by ring]
  next h =>
    rw [le_scaled_iff num den hd, not_le] at h
    refine ⟨by omega, h, ?_⟩
    by_cases hm : q = -1074
    · exact .inr hm
    · left
      rw [show q + 52 = (num.log2 : ℤ) - den.log2 - 1 by omega]
      exact hlo.le

theorem lastBit_eq (num den : ℕ) (hn : 0 < num) (hd : 0 < den) (e : ℤ)
    (he : LastBit ((num : ℚ) / den) e) : lastBit num den = e := by
  have h := lastBit_spec num den hn hd
  exact le_antisymm (LastBit.le _ _ _ h he) (LastBit.le _ _ _ he h)

def magnitude (x : Double) : ℕ := x.exponentField * fractionSpan + x.fraction

theorem exponent_ge (x : Double) : -1074 ≤ x.exponent := by
  unfold exponent
  omega

theorem mantissa_lt (x : Double) : x.mantissa < 2 * fractionSpan := by
  have : x.fraction < fractionSpan := Nat.mod_lt _ (by decide)
  unfold mantissa
  split <;> omega

theorem mantissa_ge (x : Double) : fractionSpan ≤ x.mantissa ∨ x.exponent = -1074 := by
  unfold mantissa exponent
  split
  next h => right; rw [h]; rfl
  next h => left; omega

theorem magnitude_eq (x : Double) :
    x.magnitude = (x.exponent + 1074).toNat * fractionSpan + x.mantissa := by
  unfold magnitude mantissa exponent
  split
  next h => simp [h]
  next h =>
    have h1 : max x.exponentField 1 = x.exponentField := by omega
    rw [h1]
    have h2 : ((x.exponentField : ℤ) - 1075 + 1074).toNat = x.exponentField - 1 := by omega
    rw [h2]
    obtain ⟨n, hn⟩ : ∃ n, x.exponentField = n + 1 := ⟨x.exponentField - 1, by omega⟩
    rw [hn, Nat.add_sub_cancel]
    ring

/-- A point of an interval, as a rational number. -/
structure Interval.Holds (i : Interval) (v : ℚ) : Prop where
  low : i.low.value ≤ v
  high : v ≤ i.high.value
  ends : i.closed = true ∨ (i.low.value < v ∧ v < i.high.value)

theorem Interval.contains_iff (x : Double) (r : Ratio) (h : 0 < r.den) :
    x.interval.contains r = true ↔ x.interval.Holds r.value := by
  have hl : 0 < x.interval.low.den := binaryRatio_den _ _
  have hh : 0 < x.interval.high.den := binaryRatio_den _ _
  unfold Interval.contains
  split
  next hc =>
    rw [Bool.and_eq_true, Ratio.le_iff _ _ hl h, Ratio.le_iff _ _ h hh]
    exact ⟨fun ⟨h₁, h₂⟩ => ⟨h₁, h₂, .inl hc⟩, fun ⟨h₁, h₂, _⟩ => ⟨h₁, h₂⟩⟩
  next hc =>
    rw [Bool.and_eq_true, Ratio.lt_iff _ _ hl h, Ratio.lt_iff _ _ h hh]
    exact ⟨fun ⟨h₁, h₂⟩ => ⟨h₁.le, h₂.le, .inr ⟨h₁, h₂⟩⟩,
      fun ⟨_, _, h₃⟩ => h₃.resolve_left hc⟩

/-- Is a double the least of its exponent, with one of half its spacing right below it? -/
def onBoundary (x : Double) : Bool :=
  x.mantissa = fractionSpan && 1 < x.exponentField

/-- How far an interval reaches below its double, in units of the last mantissa bit. -/
def reach (x : Double) : ℚ :=
  if x.onBoundary then 1 / 4 else 1 / 2

theorem interval_low (x : Double) (hm : 0 < x.mantissa) :
    x.interval.low.value = (x.mantissa - x.reach) * 2 ^ x.exponent := by
  have hb : (2 : ℚ) ^ (x.exponent - 2) = 2 ^ x.exponent / 4 := by
    rw [zpow_sub₀ (by norm_num)]
    norm_num
  have hlow : x.interval.low
      = binaryRatio (4 * x.mantissa - if x.onBoundary then 1 else 2) (x.exponent - 2) := rfl
  rw [hlow, binaryRatio_value, hb, reach]
  cases x.onBoundary with
  | true =>
    rw [if_pos rfl, if_pos rfl, Nat.cast_sub (by omega)]
    push_cast
    ring
  | false =>
    rw [if_neg (by decide), if_neg (by decide), Nat.cast_sub (by omega)]
    push_cast
    ring

theorem interval_high (x : Double) :
    x.interval.high.value = (x.mantissa + 1 / 2) * 2 ^ x.exponent := by
  have hb : (2 : ℚ) ^ (x.exponent - 2) = 2 ^ x.exponent / 4 := by
    rw [zpow_sub₀ (by norm_num)]
    norm_num
  simp only [interval, binaryRatio_value, hb]
  push_cast
  ring

theorem interval_value (x : Double) : x.interval.value.value = x.mantissa * 2 ^ x.exponent := by
  have hb : (2 : ℚ) ^ (x.exponent - 2) = 2 ^ x.exponent / 4 := by
    rw [zpow_sub₀ (by norm_num)]
    norm_num
  simp only [interval, binaryRatio_value, hb]
  push_cast
  ring

theorem interval_closed (x : Double) : x.interval.closed = true ↔ x.mantissa % 2 = 0 := by
  simp [interval]

theorem holds_scaled (x : Double) (hm : 0 < x.mantissa) (v : ℚ) :
    x.interval.Holds v ↔
      x.mantissa - x.reach ≤ v / 2 ^ x.exponent ∧ v / 2 ^ x.exponent ≤ x.mantissa + 1 / 2 ∧
      (x.mantissa % 2 = 0 ∨
        (x.mantissa - x.reach < v / 2 ^ x.exponent ∧ v / 2 ^ x.exponent < x.mantissa + 1 / 2)) := by
  have hu := two_zpow_pos x.exponent
  rw [le_div_iff₀ hu, div_le_iff₀ hu, lt_div_iff₀ hu, div_lt_iff₀ hu, ← interval_low x hm,
    ← interval_high x, ← interval_closed x]
  exact ⟨fun ⟨h₁, h₂, h₃⟩ => ⟨h₁, h₂, h₃⟩, fun ⟨h₁, h₂, h₃⟩ => ⟨h₁, h₂, h₃⟩⟩

theorem nearestMagnitude_of_lastBit (num den : ℕ) (hn : 0 < num) (hd : 0 < den) (q : ℤ)
    (hq : LastBit ((num : ℚ) / den) q) :
    nearestMagnitude num den = (q + 1074).toNat * fractionSpan
      + roundDiv (scaled num den q).1 (scaled num den q).2 := by
  unfold nearestMagnitude
  rw [if_neg hn.ne', lastBit_eq num den hn hd q hq]

theorem nearestMagnitude_inside (x : Double) (hm : 0 < x.mantissa) (num den : ℕ) (hn : 0 < num)
    (hd : 0 < den) (h : x.interval.Holds ((num : ℚ) / den))
    (hb : x.onBoundary = false ∨ (x.mantissa : ℚ) ≤ (num : ℚ) / den / 2 ^ x.exponent) :
    nearestMagnitude num den = x.magnitude := by
  obtain ⟨hlo, hhi, htie⟩ := (holds_scaled x hm _).mp h
  have hu := two_zpow_pos x.exponent
  have hr : (x.mantissa : ℚ) - 1 / 2 ≤ (num : ℚ) / den / 2 ^ x.exponent := by
    rcases hb with hb | hb
    · simpa [reach, hb] using hlo
    · linarith
  have hr' : x.mantissa % 2 = 0 ∨ ((x.mantissa : ℚ) - 1 / 2 < (num : ℚ) / den / 2 ^ x.exponent ∧
      (num : ℚ) / den / 2 ^ x.exponent < x.mantissa + 1 / 2) := by
    refine htie.imp_right fun ⟨h₁, h₂⟩ => ⟨?_, h₂⟩
    rcases hb with hb | hb
    · simpa [reach, hb] using h₁
    · linarith
  have hspan : (fractionSpan : ℚ) = 2 ^ (52 : ℤ) := by norm_num [fractionSpan]
  have hlast : LastBit ((num : ℚ) / den) x.exponent := by
    refine ⟨x.exponent_ge, ?_, ?_⟩
    · have hlt : (x.mantissa : ℚ) + 1 ≤ 2 * fractionSpan := by exact_mod_cast x.mantissa_lt
      have : (num : ℚ) / den / 2 ^ x.exponent < 2 ^ (53 : ℤ) := by
        rw [show (53 : ℤ) = 52 + 1 by norm_num, zpow_add₀ (by norm_num), ← hspan]
        norm_num at hlt ⊢
        linarith
      rwa [div_lt_iff₀ hu, ← zpow_add₀ (by norm_num), add_comm] at this
    · rcases x.mantissa_ge with hge | he
      · by_cases he : x.exponent = -1074
        · exact .inr he
        · left
          rw [add_comm, zpow_add₀ (by norm_num), ← hspan, ← le_div_iff₀ hu]
          rcases hge.eq_or_lt with heq | hlt
          · -- a mantissa of just one bit is a boundary, since the exponent is not the least
            have hon : x.onBoundary = true := by
              have : 1 < x.exponentField := by
                unfold exponent at he
                omega
              simp [onBoundary, ← heq, this]
            rw [heq]
            exact hb.resolve_left (by simp [hon])
          · have : (fractionSpan : ℚ) + 1 ≤ x.mantissa := by exact_mod_cast hlt
            linarith
      · exact .inr he
  rw [nearestMagnitude_of_lastBit num den hn hd _ hlast, magnitude_eq,
    roundDiv_eq _ _ x.mantissa (scaled_den num den _ hd)]
  · rwa [scaled_value]
  · rwa [scaled_value]
  · rwa [scaled_value]

theorem nearestMagnitude_below (x : Double) (hm : 0 < x.mantissa) (num den : ℕ) (hn : 0 < num)
    (hd : 0 < den) (h : x.interval.Holds ((num : ℚ) / den)) (hb : x.onBoundary = true)
    (hlt : (num : ℚ) / den / 2 ^ x.exponent < x.mantissa) :
    nearestMagnitude num den = x.magnitude := by
  obtain ⟨hlo, -, -⟩ := (holds_scaled x hm _).mp h
  obtain ⟨hman, hexp⟩ : x.mantissa = fractionSpan ∧ 1 < x.exponentField := by
    simpa [onBoundary] using hb
  have hu := two_zpow_pos x.exponent
  have hspan : (fractionSpan : ℚ) = 2 ^ (52 : ℤ) := by norm_num [fractionSpan]
  have he : -1073 ≤ x.exponent := by
    unfold exponent
    omega
  rw [hman] at hlo hlt
  simp only [reach, hb, if_true] at hlo
  have hhalf : (num : ℚ) / den / 2 ^ (x.exponent - 1) = 2 * ((num : ℚ) / den / 2 ^ x.exponent) := by
    rw [zpow_sub₀ (by norm_num)]
    field_simp
  have hlast : LastBit ((num : ℚ) / den) (x.exponent - 1) := by
    refine ⟨by omega, ?_, .inl ?_⟩
    · rwa [hspan, div_lt_iff₀ hu, ← zpow_add₀ (by norm_num),
        show (52 : ℤ) + x.exponent = x.exponent - 1 + 53 by ring] at hlt
    · rw [show x.exponent - 1 + 52 = 51 + x.exponent by ring, zpow_add₀ (by norm_num),
        ← le_div_iff₀ hu]
      norm_num [fractionSpan] at hlo ⊢
      linarith
  have hround : roundDiv (scaled num den (x.exponent - 1)).1 (scaled num den (x.exponent - 1)).2
      = 2 * fractionSpan := by
    refine roundDiv_eq _ _ _ (scaled_den num den _ hd) ?_ ?_ (.inl (by decide))
    · rw [scaled_value, hhalf]
      push_cast
      linarith
    · rw [scaled_value, hhalf]
      push_cast
      linarith
  rw [nearestMagnitude_of_lastBit num den hn hd _ hlast, hround, magnitude_eq, hman,
    show (x.exponent + 1074).toNat = (x.exponent - 1 + 1074).toNat + 1 by omega]
  ring

theorem nearestMagnitude_of_holds (x : Double) (hm : 0 < x.mantissa) (num den : ℕ) (hd : 0 < den)
    (h : x.interval.Holds ((num : ℚ) / den)) : nearestMagnitude num den = x.magnitude := by
  have hn : 0 < num := by
    have hlow : 0 < x.interval.low.value := by
      have h1 : (1 : ℚ) ≤ x.mantissa := by exact_mod_cast hm
      have h2 : x.reach < 1 := by
        unfold reach
        split <;> norm_num
      rw [interval_low x hm]
      exact mul_pos (by linarith) (two_zpow_pos _)
    rcases Nat.eq_zero_or_pos num with h0 | h0
    · have := hlow.trans_le h.low
      simp [h0] at this
    · exact h0
  by_cases hb : x.onBoundary = true
  · rcases le_or_gt (x.mantissa : ℚ) ((num : ℚ) / den / 2 ^ x.exponent) with hv | hv
    · exact nearestMagnitude_inside x hm num den hn hd h (.inr hv)
    · exact nearestMagnitude_below x hm num den hn hd h hb hv
  · exact nearestMagnitude_inside x hm num den hn hd h (.inl (by simpa using hb))

theorem ofMagnitude_magnitude (x : Double) : ofMagnitude x.negative x.magnitude = x := by
  have hlt : x.bits.toNat < 2 ^ 64 := x.bits.toNat_lt
  have hbits : (if x.negative then Word.half + x.magnitude else x.magnitude) = x.bits.toNat := by
    unfold negative magnitude exponentField fraction
    simp only [fractionSpan, Word.half, decide_eq_true_eq]
    split <;> omega
  cases x with
  | mk bits =>
    unfold ofMagnitude
    rw [hbits]
    simp

theorem magnitude_lt (x : Double) (h : x.isFinite = true) : x.magnitude < infiniteMagnitude := by
  have hf : x.fraction < fractionSpan := Nat.mod_lt _ (by decide)
  have he : x.exponentField < 2048 := Nat.mod_lt _ (by decide)
  have hne : x.exponentField ≠ 2047 := by simpa [isFinite] using h
  unfold magnitude infiniteMagnitude
  have : x.exponentField ≤ 2046 := by omega
  calc x.exponentField * fractionSpan + x.fraction
      < 2046 * fractionSpan + fractionSpan := by nlinarith
    _ = 2047 * fractionSpan := by norm_num

theorem ofRatio?_of_holds (x : Double) (hf : x.isFinite = true) (hm : 0 < x.mantissa) (r : Ratio)
    (hd : 0 < r.den) (h : x.interval.Holds r.value) :
    ofRatio? x.negative r.num r.den = some x := by
  have hb := nearestMagnitude_of_holds x hm r.num r.den hd h
  simp only [ofRatio?, hb, magnitude_lt x hf, if_true, ofMagnitude_magnitude]

end FormatFuzz.Double
