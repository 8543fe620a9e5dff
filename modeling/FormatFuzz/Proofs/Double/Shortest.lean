import FormatFuzz.Proofs.Double.Rounding

/-!
# The shortest decimal lies in the interval

Seventeen digits are enough: on their grid one of the two neighbours of a double lies in its
interval, so the search ends with a hit and never runs out.
-/

set_option autoImplicit false

namespace FormatFuzz.Double

theorem ten_pow_le (k n : ℕ) (h : 196 * k ≤ 59 * n) : 10 ^ k ≤ 2 ^ n := by
  have hpow : (10 ^ k) ^ 59 ≤ (2 ^ n) ^ 59 := by
    calc (10 ^ k) ^ 59 = (10 ^ 59) ^ k := by rw [← pow_mul, ← pow_mul, mul_comm]
      _ ≤ (2 ^ 196) ^ k := Nat.pow_le_pow_left (by norm_num) k
      _ = 2 ^ (196 * k) := by rw [← pow_mul]
      _ ≤ 2 ^ (59 * n) := Nat.pow_le_pow_right (by norm_num) h
      _ = (2 ^ n) ^ 59 := by rw [← pow_mul, mul_comm]
  exact (Nat.pow_le_pow_iff_left (by norm_num)).mp hpow

theorem two_pow_le (n j : ℕ) (h : 28 * n ≤ 93 * j) : 2 ^ n ≤ 10 ^ j := by
  have hpow : (2 ^ n) ^ 93 ≤ (10 ^ j) ^ 93 := by
    calc (2 ^ n) ^ 93 = (2 ^ 93) ^ n := by rw [← pow_mul, ← pow_mul, mul_comm]
      _ ≤ (10 ^ 28) ^ n := Nat.pow_le_pow_left (by norm_num) n
      _ = 10 ^ (28 * n) := by rw [← pow_mul]
      _ ≤ 10 ^ (93 * j) := Nat.pow_le_pow_right (by norm_num) h
      _ = (10 ^ j) ^ 93 := by rw [← pow_mul, mul_comm]
  exact (Nat.pow_le_pow_iff_left (by norm_num)).mp hpow

/-- The estimate of a decimal exponent from a binary one, with thirty thousand one hundred and three
hundred-thousandths for the logarithm of two, errs downwards. -/
theorem ten_zpow_le (k d : ℤ) (h : 100000 * (k + 1) ≤ 30103 * d) (hlo : -2000 ≤ d)
    (hhi : d ≤ 2000) : (10 : ℚ) ^ k ≤ 2 ^ (d - 1) := by
  by_cases hk : 0 ≤ k
  · obtain ⟨n, rfl⟩ := Int.eq_ofNat_of_zero_le hk
    obtain ⟨e, he⟩ := Int.eq_ofNat_of_zero_le (show 0 ≤ d - 1 by omega)
    rw [he, zpow_natCast, zpow_natCast]
    exact_mod_cast ten_pow_le n e (by omega)
  · by_cases hd : 0 ≤ d - 1
    · exact (zpow_le_one_of_nonpos₀ (by norm_num) (by omega)).trans
        (one_le_zpow₀ (by norm_num) hd)
    · obtain ⟨j, hj⟩ := Int.eq_ofNat_of_zero_le (show 0 ≤ -k by omega)
      obtain ⟨n, hn⟩ := Int.eq_ofNat_of_zero_le (show 0 ≤ -(d - 1) by omega)
      rw [show k = -(j : ℤ) by omega, show d - 1 = -(n : ℤ) by omega, zpow_neg, zpow_neg,
        zpow_natCast, zpow_natCast]
      refine inv_anti₀ (by positivity) ?_
      exact_mod_cast two_pow_le n j (by omega)

theorem decimalExponent_le (v : Ratio) (hn : 0 < v.num) (hd : 0 < v.den)
    (hlo : -2000 ≤ (v.num.log2 : ℤ) - v.den.log2) (hhi : (v.num.log2 : ℤ) - v.den.log2 ≤ 2000) :
    (10 : ℚ) ^ decimalExponent v ≤ v.value := by
  have step : ∀ k : ℤ, (10 : ℚ) ^ k ≤ v.value →
      (10 : ℚ) ^ (if (decimalRatio 1 (k + 1)).le v then k + 1 else k) ≤ v.value := by
    intro k hk
    split
    next h =>
      rw [Ratio.le_iff _ _ (decimalRatio_den _ _) hd, decimalRatio_value] at h
      simpa using h
    next => exact hk
  have start : (10 : ℚ) ^ ((((v.num.log2 : ℤ) - v.den.log2) * 30103).fdiv 100000 - 1)
      ≤ v.value := by
    refine (ten_zpow_le _ ((v.num.log2 : ℤ) - v.den.log2) ?_ hlo hhi).trans
      (log2_quotient v.num v.den hn hd).1.le
    rw [Int.fdiv_eq_ediv_of_nonneg _ (by norm_num)]
    omega
  exact step _ (step _ (step _ start))

theorem onGrid?_contains (i : Interval) (t : ℤ) (d : ℕ) (h : i.onGrid? t = some d) :
    i.contains (decimalRatio d t) = true := by
  unfold Interval.onGrid? at h
  simp only at h
  generalize (i.value.shift t).floor = a at h
  split at h
  next hb =>
    obtain ⟨hl, hu⟩ := Bool.and_eq_true_iff.mp hb
    split at h
    · cases h
      exact hl
    · split at h
      · cases h
        exact hu
      · cases h
        rcases Nat.mod_two_eq_zero_or_one a with h2 | h2
        · rwa [h2]
        · rwa [h2]
  next =>
    split at h
    next hl =>
      cases h
      exact hl
    next =>
      split at h
      next hu =>
        cases h
        exact hu
      next => cases h

theorem onGrid?_isSome (i : Interval) (t : ℤ)
    (h : i.contains (decimalRatio (i.value.shift t).floor t) = true ∨
      i.contains (decimalRatio ((i.value.shift t).floor + 1) t) = true) :
    (i.onGrid? t).isSome := by
  unfold Interval.onGrid?
  simp only
  rcases h with h | h
  · simp only [h, Bool.true_and, if_true]
    split
    · split
      · rfl
      · split <;> rfl
    · rfl
  · simp only [h, Bool.and_true, if_true]
    split
    · split
      · rfl
      · split <;> rfl
    · rfl

theorem search_contains (i : Interval) (k : ℤ) (fuel n hit : ℕ) (hlo : n ≤ hit)
    (hhi : hit < n + fuel) (h : (i.onGrid? (k - hit + 1)).isSome) :
    ∃ d t, i.search k fuel n = Decimal.ofScaled d t ∧ i.contains (decimalRatio d t) = true := by
  induction fuel generalizing n with
  | zero => omega
  | succ fuel ih =>
    rw [Interval.search]
    cases hg : i.onGrid? (k - n + 1) with
    | some d => exact ⟨d, k - n + 1, rfl, onGrid?_contains i _ d hg⟩
    | none =>
      have hne : n ≠ hit := by
        rintro rfl
        simp [hg] at h
      exact ih (n + 1) (by omega) (by omega)

theorem interval_value_bounds (x : Double) (hf : x.isFinite = true) (hm : 0 < x.mantissa) :
    (2 : ℚ) ^ (-1074 : ℤ) ≤ x.interval.value.value ∧ x.interval.value.value < 2 ^ (1024 : ℤ) := by
  have he : x.exponent ≤ 971 := by
    have h1 : x.exponentField < 2048 := Nat.mod_lt _ (by decide)
    have h2 : x.exponentField ≠ 2047 := by simpa [isFinite] using hf
    unfold exponent
    omega
  have hu := two_zpow_pos x.exponent
  have h1 : (1 : ℚ) ≤ x.mantissa := by exact_mod_cast hm
  have h2 : (x.mantissa : ℚ) < 2 ^ (53 : ℤ) := by
    have : (x.mantissa : ℚ) < ((2 * fractionSpan : ℕ) : ℚ) := by exact_mod_cast x.mantissa_lt
    norm_num [fractionSpan] at this ⊢
    exact this
  rw [interval_value]
  constructor
  · calc (2 : ℚ) ^ (-1074 : ℤ) ≤ 2 ^ x.exponent :=
          zpow_le_zpow_right₀ (by norm_num) x.exponent_ge
      _ ≤ x.mantissa * 2 ^ x.exponent := by nlinarith
  · calc (x.mantissa : ℚ) * 2 ^ x.exponent < 2 ^ (53 : ℤ) * 2 ^ x.exponent :=
          mul_lt_mul_of_pos_right h2 hu
      _ = 2 ^ (53 + x.exponent) := by rw [zpow_add₀ (by norm_num)]
      _ ≤ 2 ^ (1024 : ℤ) := zpow_le_zpow_right₀ (by norm_num) (by omega)

theorem interval_value_den (x : Double) : 0 < x.interval.value.den := binaryRatio_den _ _

theorem interval_value_num (x : Double) (hm : 0 < x.mantissa) : 0 < x.interval.value.num := by
  have h : 0 < x.interval.value.value := by
    rw [interval_value]
    exact mul_pos (by exact_mod_cast hm) (two_zpow_pos _)
  rcases Nat.eq_zero_or_pos x.interval.value.num with h0 | h0
  · simp [Ratio.value, h0] at h
  · exact h0

theorem ten_zpow_decimalExponent_le (x : Double) (hf : x.isFinite = true) (hm : 0 < x.mantissa) :
    (10 : ℚ) ^ decimalExponent x.interval.value ≤ x.interval.value.value := by
  obtain ⟨hlo, hhi⟩ := interval_value_bounds x hf hm
  have hn := interval_value_num x hm
  obtain ⟨h₁, h₂⟩ := log2_quotient _ _ hn x.interval_value_den
  have b₁ := (zpow_lt_zpow_iff_right₀ (by norm_num)).mp (h₁.trans hhi)
  have b₂ := (zpow_lt_zpow_iff_right₀ (by norm_num)).mp (hlo.trans_lt h₂)
  exact decimalExponent_le _ hn x.interval_value_den (by omega) (by omega)

/-- On the grid of seventeen digits a neighbour of the value lies in the interval: the upper one at
a boundary, where the grid is finer than half a mantissa bit, and elsewhere the nearer one. -/
theorem grid_hit (x : Double) (hm : 0 < x.mantissa) (k : ℤ)
    (hk : (10 : ℚ) ^ k ≤ x.interval.value.value) : (x.interval.onGrid? (k - 16)).isSome := by
  have hg : (0 : ℚ) < 10 ^ (k - 16) := ten_zpow_pos _
  have hu := two_zpow_pos x.exponent
  have hgrid : (10 : ℚ) ^ (k - 16) * 10 ^ 16 ≤ x.mantissa * 2 ^ x.exponent := by
    rw [← interval_value]
    calc (10 : ℚ) ^ (k - 16) * 10 ^ 16 = 10 ^ k := by
          rw [← zpow_natCast, ← zpow_add₀ (by norm_num)]
          norm_num
      _ ≤ x.interval.value.value := hk
  obtain ⟨hlo, hhi⟩ := floor_bounds _ _ (shift_den x.interval.value (k - 16) x.interval_value_den)
  change (((x.interval.value.shift (k - 16)).floor : ℕ) : ℚ)
    ≤ (x.interval.value.shift (k - 16)).value at hlo
  change (x.interval.value.shift (k - 16)).value
    < ((x.interval.value.shift (k - 16)).floor : ℕ) + 1 at hhi
  rw [shift_value, interval_value, le_div_iff₀ hg] at hlo
  rw [shift_value, interval_value, div_lt_iff₀ hg] at hhi
  refine onGrid?_isSome _ _ ?_
  rw [Interval.contains_iff x _ (decimalRatio_den _ _), decimalRatio_value,
    Interval.contains_iff x _ (decimalRatio_den _ _), decimalRatio_value]
  generalize (x.interval.value.shift (k - 16)).floor = a at hlo hhi ⊢
  generalize (10 : ℚ) ^ (k - 16) = g at hg hgrid hlo hhi ⊢
  have inside : ∀ v : ℚ, x.mantissa * 2 ^ x.exponent - x.reach * 2 ^ x.exponent < v →
      v < x.mantissa * 2 ^ x.exponent + 1 / 2 * 2 ^ x.exponent → x.interval.Holds v := by
    intro v h₁ h₂
    have h₁' : x.interval.low.value < v := by rw [interval_low x hm, sub_mul]; exact h₁
    have h₂' : v < x.interval.high.value := by rw [interval_high, add_mul]; exact h₂
    exact ⟨h₁'.le, h₂'.le, .inr ⟨h₁', h₂'⟩⟩
  push_cast at hhi ⊢
  by_cases hb : x.onBoundary = true
  · have hman : (x.mantissa : ℚ) = 4503599627370496 := by
      have : x.mantissa = fractionSpan := by
        simp only [onBoundary, Bool.and_eq_true, decide_eq_true_eq] at hb
        exact hb.1
      rw [this]
      norm_num
    rw [hman] at hgrid hlo hhi inside
    have hr : x.reach = 1 / 4 := by simp [reach, hb]
    rw [hr] at inside
    generalize (2 : ℚ) ^ x.exponent = u at hu hgrid hlo hhi inside
    exact .inr (inside _ (by linarith) (by linarith))
  · have hman : (x.mantissa : ℚ) < 9007199254740992 := by
      have : (x.mantissa : ℚ) < ((2 * fractionSpan : ℕ) : ℚ) := by exact_mod_cast x.mantissa_lt
      norm_num [fractionSpan] at this
      exact_mod_cast this
    have hspan : (x.mantissa : ℚ) * 2 ^ x.exponent < 9007199254740992 * 2 ^ x.exponent :=
      mul_lt_mul_of_pos_right hman hu
    have hr : x.reach = 1 / 2 := by simp [reach, hb]
    rw [hr] at inside
    generalize (x.mantissa : ℚ) * 2 ^ x.exponent = v at hgrid hlo hhi inside hspan
    generalize (2 : ℚ) ^ x.exponent = u at hu inside hspan
    by_cases hnear : v - a * g < 1 / 2 * u
    · exact .inl (inside _ (by linarith) (by linarith))
    · exact .inr (inside _ (by linarith) (by linarith))

theorem shortest_holds (x : Double) (hf : x.isFinite = true) (hm : 0 < x.mantissa) :
    ∃ (d : ℕ) (t : ℤ), x.shortest = Decimal.ofScaled d t ∧ x.interval.Holds (d * 10 ^ t) := by
  have hk := ten_zpow_decimalExponent_le x hf hm
  have hhit := grid_hit x hm _ hk
  obtain ⟨d, t, hs, hc⟩ := search_contains x.interval (decimalExponent x.interval.value) 17 1 17
    (by omega) (by omega) (by simpa [sub_add] using hhit)
  rw [Interval.contains_iff x _ (decimalRatio_den _ _), decimalRatio_value] at hc
  refine ⟨d, t, ?_, hc⟩
  rw [shortest, if_neg hm.ne', ← hs]

end FormatFuzz.Double
