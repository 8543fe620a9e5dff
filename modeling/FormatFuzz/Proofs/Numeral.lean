import FormatFuzz.Numeral
import Mathlib.Algebra.Order.Ring.Nat
import Mathlib.Data.List.Basic

/-!
# Decimals and letters

The decimal of an integer is read as that integer; which code points the capital and the small
letters of ASCII have.
-/

set_option autoImplicit false

namespace FormatFuzz.Text

theorem isUpper_iff (c : Char) : c.isUpper = true ↔ 65 ≤ c.toNat ∧ c.toNat ≤ 90 := by
  change decide (65 ≤ c.val ∧ c.val ≤ 90) = true ↔ _
  simp [UInt32.le_iff_toNat_le, ← Char.toNat_val]

theorem isLower_iff (c : Char) : c.isLower = true ↔ 97 ≤ c.toNat ∧ c.toNat ≤ 122 := by
  change (decide (97 ≤ c.val) && decide (c.val ≤ 122)) = true ↔ _
  simp [UInt32.le_iff_toNat_le, ← Char.toNat_val]

theorem isAlpha_iff (c : Char) : c.isAlpha = true ↔ c.isUpper = true ∨ c.isLower = true :=
  Bool.or_eq_true_iff

end FormatFuzz.Text

namespace FormatFuzz.Numeral

theorem digit?_of_isDigit (c : Char) (h : c.isDigit = true) :
    digit? 10 c = some (c.toNat - 48) := by
  have hc : 48 ≤ c.toNat ∧ c.toNat ≤ 57 := Char.isDigit_iff_toNat.mp h
  have hv : Text.hexValue c = some (c.toNat - 48) := by
    have h0 : '0' ≤ c := by
      rw [Char.le_def, UInt32.le_iff_toNat_le]
      exact hc.1
    have h9 : c ≤ '9' := by
      rw [Char.le_def, UInt32.le_iff_toNat_le]
      exact hc.2
    simp [Text.hexValue, h0, h9]
  rw [digit?, hv]
  simp only [ite_eq_left_iff]
  omega

theorem digits_ofDigitChars (cs : List Char) (h : ∀ c ∈ cs, c.isDigit = true) (after : Bool)
    (acc : Nat) : digits 10 after false acc cs = some (Nat.ofDigitChars 10 cs acc) := by
  induction cs generalizing after acc with
  | nil => simp [digits]
  | cons c cs ih =>
    have hc := h c (by simp)
    have hu : c ≠ '_' := by
      rintro rfl
      simp at hc
    rw [digits, if_neg hu, digit?_of_isDigit c hc]
    simp only
    rw [ih (fun d hd => h d (List.mem_cons_of_mem c hd))]
    simp [Nat.ofDigitChars, Nat.mul_comm]

theorem head_toDigits (n : Nat) (h : 0 < n) : (Nat.toDigits 10 n).head? ≠ some '0' := by
  induction n using Nat.strongRecOn with
  | _ n ih =>
    rw [Nat.toDigits_eq_if (by omega)]
    split
    next hn =>
      have : n = 1 ∨ n = 2 ∨ n = 3 ∨ n = 4 ∨ n = 5 ∨ n = 6 ∨ n = 7 ∨ n = 8 ∨ n = 9 := by omega
      rcases this with rfl | rfl | rfl | rfl | rfl | rfl | rfl | rfl | rfl <;> decide
    next hn =>
      have hd := ih (n / 10) (by omega) (by omega)
      cases ht : Nat.toDigits 10 (n / 10) with
      | nil => exact absurd ht Nat.toDigits_ne_nil
      | cons c cs =>
        rw [ht] at hd
        simpa using hd

theorem base_toDigits (n : Nat) : base (Nat.toDigits 10 n) = (10, Nat.toDigits 10 n) := by
  rcases Nat.eq_zero_or_pos n with rfl | h
  · rfl
  · have hd := head_toDigits n h
    unfold base
    split
    next c cs he => simp [he] at hd
    next => rfl

theorem natural?_toDigits (n : Nat) : natural? (Nat.toDigits 10 n) = some n := by
  have hd : ∀ c ∈ Nat.toDigits 10 n, c.isDigit = true :=
    fun c hc => Nat.isDigit_of_mem_toDigits (by omega) (by omega) hc
  rw [natural?, base_toDigits]
  simp only [List.isEmpty_iff, Nat.toDigits_ne_nil, if_false]
  rw [digits_ofDigitChars _ hd, Nat.ofDigitChars_ten_toDigits]

theorem sign_toDigits (n : Nat) : sign (Nat.toDigits 10 n) = (false, Nat.toDigits 10 n) := by
  have hd : ∀ c ∈ Nat.toDigits 10 n, c.isDigit = true :=
    fun c hc => Nat.isDigit_of_mem_toDigits (by omega) (by omega) hc
  unfold sign
  split
  next cs he => simpa using hd '-' (by simp [he])
  next cs he => simpa using hd '+' (by simp [he])
  next => rfl

theorem toList_toString_ofNat (n : Nat) : (toString (n : Int)).toList = Nat.toDigits 10 n := by
  change (toString n).toList = _
  rw [Nat.toString_eq_ofList_toDigits, String.toList_ofList]

theorem toList_toString_negSucc (n : Nat) :
    (toString (Int.negSucc n)).toList = '-' :: Nat.toDigits 10 (n + 1) := by
  change ("-" ++ toString (n + 1)).toList = _
  simp [String.toList_append]

theorem integer?_toString (v : Int) : integer? (toString v).toList = some v := by
  cases v with
  | ofNat n =>
    change integer? (toString (n : Int)).toList = _
    rw [toList_toString_ofNat, integer?, sign_toDigits]
    simp [natural?_toDigits]
  | negSucc n =>
    rw [toList_toString_negSucc]
    simp [integer?, sign, natural?_toDigits, Int.negSucc_eq]

theorem digit?_lt (b : Nat) (c : Char) (d : Nat) (h : digit? b c = some d) : d < b := by
  unfold digit? at h
  split at h
  next =>
    split at h
    next hd =>
      cases h
      exact hd
    next => cases h
  next => cases h

theorem decimalDigits_lt (cs : List Char) (n : Nat) (h : decimalDigits cs = some n) :
    n < 10 ^ cs.length := by
  have run : ∀ (cs : List Char) (acc k : Nat), acc < 10 ^ k →
      cs.foldlM (fun acc c => (digit? 10 c).map (acc * 10 + ·)) acc = some n →
      n < 10 ^ (k + cs.length) := by
    intro cs
    induction cs with
    | nil =>
      intro acc k hacc h
      cases h
      exact hacc
    | cons c cs ih =>
      intro acc k hacc h
      rw [List.foldlM_cons] at h
      obtain ⟨m, hm, h⟩ := Option.bind_eq_some_iff.mp h
      obtain ⟨d, hd, rfl⟩ := Option.map_eq_some_iff.mp hm
      have hd := digit?_lt 10 c d hd
      have := ih (acc * 10 + d) (k + 1) (by rw [Nat.pow_succ]; omega) h
      rwa [Nat.add_right_comm, Nat.add_assoc] at this
  unfold decimalDigits at h
  split at h
  · cases h
  · simpa using run cs 0 0 (by decide) h

theorem upTo_lt (b limit : Nat) (hl : 0 < limit) (cs : List Char) (n : Nat)
    (h : upTo b limit cs = .ok n) : n < limit := by
  have run : ∀ (cs : List Char) (acc : Nat), acc < limit → upToFrom b limit acc cs = .ok n →
      n < limit := by
    intro cs
    induction cs with
    | nil =>
      intro acc hacc h
      cases h
      exact hacc
    | cons c cs ih =>
      intro acc hacc h
      rw [upToFrom] at h
      split at h
      next => cases h
      next d _ =>
        split at h
        next hlt => exact ih _ hlt h
        next => cases h
  unfold upTo at h
  split at h
  · cases h
  · exact run cs 0 hl h

end FormatFuzz.Numeral
