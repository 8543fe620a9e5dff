import FormatFuzz.Proofs.Double.Shortest
import FormatFuzz.Proofs.Numeral
import Mathlib.Data.List.TakeWhile

/-!
# Reading the text of a double

The text of a finite double has digits, perhaps a point with more digits, and perhaps an exponent:
a `Spelling`. A spelling is read as the decimal it spells, and the decimal of a double lies in its
interval, so the text is read as the double itself.
-/

set_option autoImplicit false

namespace FormatFuzz.Numeral

/-- The parts of a decimal: the digits before and after the point, and the sign and the digits of
the exponent. -/
structure Spelling where
  whole : List Char
  places : List Char
  expo : Option (Bool × List Char)

namespace Spelling

def pointChars (s : Spelling) : List Char :=
  if s.places.isEmpty then [] else '.' :: s.places

def expoChars (s : Spelling) : List Char :=
  match s.expo with
  | none => []
  | some (neg, ds) => 'e' :: (if neg then '-' else '+') :: ds

def chars (s : Spelling) : List Char :=
  s.whole ++ (s.pointChars ++ s.expoChars)

def power (s : Spelling) : ℤ :=
  (match s.expo with
    | none => 0
    | some (neg, ds) => if neg then -(Nat.ofDigitChars 10 ds 0 : ℤ) else Nat.ofDigitChars 10 ds 0)
  - s.places.length

def number (s : Spelling) : ℕ :=
  Nat.ofDigitChars 10 (s.whole ++ s.places) 0

structure Valid (s : Spelling) : Prop where
  nonempty : s.whole ≠ []
  whole : ∀ c ∈ s.whole, c.isDigit = true
  places : ∀ c ∈ s.places, c.isDigit = true
  expo : ∀ neg ds, s.expo = some (neg, ds) →
    ds ≠ [] ∧ (∀ c ∈ ds, c.isDigit = true) ∧ Nat.ofDigitChars 10 ds 0 < exponentCap

end Spelling

theorem digit?_e : digit? 10 'e' = none := by decide

theorem significand_digits (cs rest : List Char) (h : ∀ c ∈ cs, c.isDigit = true) (dot : Bool)
    (v p : ℕ) (any : Bool) :
    significand 10 dot v p any (cs ++ rest) =
      significand 10 dot (Nat.ofDigitChars 10 cs v) (if dot then p + cs.length else p)
        (any || !cs.isEmpty) rest := by
  induction cs generalizing v p any with
  | nil => simp
  | cons c cs ih =>
    have hc := h c (by simp)
    have hp : c ≠ '.' := by
      rintro rfl
      simp at hc
    rw [List.cons_append, significand, digit?_of_isDigit c hc]
    simp only [hp, decide_false, Bool.false_and, Bool.false_eq_true, if_false]
    rw [ih (fun d hd => h d (List.mem_cons_of_mem c hd)), Nat.ofDigitChars_cons, Nat.mul_comm v 10]
    cases dot with
    | false => simp
    | true => simp [Nat.add_comm, Nat.add_left_comm]

theorem ofDigitChars_le (cs : List Char) (acc : ℕ) : acc ≤ Nat.ofDigitChars 10 cs acc := by
  rw [Nat.ofDigitChars_eq_ofDigitChars_zero]
  have : 1 ≤ 10 ^ cs.length := Nat.one_le_pow _ _ (by omega)
  nlinarith

theorem exponent_digits (cs : List Char) (h : ∀ c ∈ cs, c.isDigit = true) (acc : ℕ)
    (hcap : Nat.ofDigitChars 10 cs acc < exponentCap) :
    cs.foldlM (fun acc c => (digit? 10 c).map fun d => if acc < exponentCap then acc * 10 + d else acc)
      acc = some (Nat.ofDigitChars 10 cs acc) := by
  induction cs generalizing acc with
  | nil => rfl
  | cons c cs ih =>
    have hacc : acc < exponentCap := (ofDigitChars_le _ _).trans_lt hcap
    rw [Nat.ofDigitChars_cons] at hcap
    rw [List.foldlM_cons, digit?_of_isDigit c (h c (by simp)), Nat.ofDigitChars_cons,
      ← ih (fun d hd => h d (List.mem_cons_of_mem c hd)) _ hcap]
    simp [hacc, Nat.mul_comm]

theorem exponent?_digits (neg : Bool) (ds : List Char) (hne : ds ≠ [])
    (h : ∀ c ∈ ds, c.isDigit = true) (hcap : Nat.ofDigitChars 10 ds 0 < exponentCap) :
    exponent? ((if neg then '-' else '+') :: ds) =
      some (if neg then -(Nat.ofDigitChars 10 ds 0 : ℤ) else Nat.ofDigitChars 10 ds 0) := by
  have hs : sign ((if neg then '-' else '+') :: ds) = (neg, ds) := by cases neg <;> rfl
  simp [exponent?, hs, hne, exponent_digits ds h 0 hcap]

theorem decimal_chars (s : Spelling) (hs : s.Valid) (neg : Bool) :
    double.decimal neg s.chars = ofDecimal neg s.number s.power := by
  have hw := significand_digits s.whole (s.pointChars ++ s.expoChars) hs.whole false 0 0 false
  have hp : significand 10 false 0 0 false s.chars
      = ⟨s.number, s.places.length, true, s.expoChars⟩ := by
    have hne : s.whole.isEmpty = false := by simpa using hs.nonempty
    -- the exponent mark is no digit, so the digits end there
    have hend : ∀ dot v p, significand 10 dot v p true s.expoChars = ⟨v, p, true, s.expoChars⟩ := by
      intro dot v p
      unfold Spelling.expoChars
      cases s.expo with
      | none => rfl
      | some e => simp [significand, digit?_e]
    rw [Spelling.chars, hw, hne]
    unfold Spelling.pointChars Spelling.number
    by_cases hpl : s.places = []
    · simp [hpl, hend]
    · have := significand_digits s.places s.expoChars hs.places true
        (Nat.ofDigitChars 10 s.whole 0) 0 true
      simp only [hpl, List.isEmpty_iff, if_false, List.cons_append, significand, Bool.not_false,
        Bool.and_true, decide_true, if_true, Bool.or_true, Bool.false_eq_true]
      rw [this]
      simp [hend, Nat.ofDigitChars_append]
  unfold double.decimal
  simp only [hp]
  unfold Spelling.power Spelling.expoChars
  cases he : s.expo with
  | none => simp
  | some e =>
    obtain ⟨eneg, ds⟩ := e
    obtain ⟨hne, hd, hcap⟩ := hs.expo eneg ds he
    simp only [exponent?_digits eneg ds hne hd hcap]
    simp

theorem toLower_of_isDigit (c : Char) (h : c.isDigit = true) : c.toLower = c := by
  have hu : ¬ c.isUpper = true := by
    have hd : c.toNat ≤ 57 := (Char.isDigit_iff_toNat.mp h).2
    rw [Text.isUpper_iff]
    omega
  unfold Char.toLower
  split
  next h' => exact absurd (decide_eq_true h') hu
  next => rfl

theorem sign_digit (neg : Bool) (c : Char) (cs : List Char) (h : c.isDigit = true) :
    sign ((if neg then ['-'] else []) ++ c :: cs) = (neg, c :: cs) := by
  cases neg with
  | true => rfl
  | false =>
    have h1 : c ≠ '-' := by
      rintro rfl
      simp at h
    have h2 : c ≠ '+' := by
      rintro rfl
      simp at h
    simp [sign, h1, h2]

theorem special?_digit (neg : Bool) (c : Char) (cs : List Char) (h : c.isDigit = true) :
    special? ((if neg then ['-'] else []) ++ c :: cs) = none := by
  have hd := toLower_of_isDigit c h
  have hword : ∀ (d : Char) (ds : List Char), d ≠ c →
      String.ofList (Text.lower (c :: cs)) ≠ String.ofList (d :: ds) := by
    intro d ds hne
    rw [ne_eq, String.ofList_inj, Text.lower, List.map_cons, hd]
    simp [hne.symm]
  have hi : 'i' ≠ c := by
    rintro rfl
    simp at h
  have hn : 'n' ≠ c := by
    rintro rfl
    simp at h
  have hnan : String.ofList (Text.lower ((if neg then ['-'] else []) ++ c :: cs)) ≠ "nan" := by
    cases neg with
    | true =>
      change String.ofList ('-' :: Text.lower (c :: cs)) ≠ String.ofList ['n', 'a', 'n']
      rw [ne_eq, String.ofList_inj]
      simp
    | false => exact hword 'n' ['a', 'n'] hn
  have h1 := hword 'i' ['n', 'f'] hi
  have h2 := hword 'i' ['n', 'f', 'i', 'n', 'i', 't', 'y'] hi
  unfold special?
  rw [sign_digit neg c cs h]
  simp only
  rw [if_neg (by simpa using ⟨h1, h2⟩), if_neg hnan]

theorem Spelling.second_char (s : Spelling) (hs : s.Valid) (c x : Char) (cs : List Char)
    (h : s.chars = c :: x :: cs) : x ≠ 'x' ∧ x ≠ 'X' := by
  have hx : x.isDigit = true ∨ x = '.' ∨ x = 'e' := by
    obtain ⟨w, ws, hw⟩ := List.exists_cons_of_ne_nil hs.nonempty
    rw [chars, hw, List.cons_append, List.cons.injEq] at h
    cases ws with
    | cons d ds =>
      rw [List.cons_append, List.cons.injEq] at h
      exact .inl (h.2.1 ▸ hs.whole d (by simp [hw]))
    | nil =>
      rw [List.nil_append, pointChars, expoChars] at h
      split at h
      · cases he : s.expo with
        | none => simp [he] at h
        | some e =>
          simp only [he, List.nil_append, List.cons.injEq] at h
          exact .inr (.inr h.2.1.symm)
      · rw [List.cons_append, List.cons.injEq] at h
        exact .inr (.inl h.2.1.symm)
  rcases hx with hx | rfl | rfl
  · constructor
    · rintro rfl
      simp at hx
    · rintro rfl
      simp at hx
  · decide
  · decide

theorem double_chars (s : Spelling) (hs : s.Valid) (neg : Bool) :
    double ((if neg then ['-'] else []) ++ s.chars) = ofDecimal neg s.number s.power := by
  obtain ⟨w, ws, hw⟩ := List.exists_cons_of_ne_nil hs.nonempty
  have hd : w.isDigit = true := hs.whole w (by simp [hw])
  have hc : s.chars = w :: (ws ++ (s.pointChars ++ s.expoChars)) := by
    rw [Spelling.chars, hw, List.cons_append]
  have hx := s.second_char hs
  rw [← decimal_chars s hs neg]
  generalize ws ++ (s.pointChars ++ s.expoChars) = rest at hc
  rw [hc] at hx ⊢
  unfold double
  rw [special?_digit neg w rest hd, sign_digit neg w rest hd]
  simp only
  split
  next x c cs he =>
    cases he
    obtain ⟨h1, h2⟩ := hx _ _ _ rfl
    simp [h1, h2]
  next => rfl

end FormatFuzz.Numeral

namespace FormatFuzz.Double

open Numeral (Spelling)

def Decimal.chars (d : Decimal) : List Char := (digitText d.digits).toList

theorem digitText_toList (ds : List ℕ) :
    (digitText ds).toList = ds.map fun d => Char.ofNat (48 + d) := by
  rw [digitText, String.toList_ofList]

theorem Decimal.length_chars (d : Decimal) : d.chars.length = d.digits.length := by
  rw [chars, digitText_toList, List.length_map]

theorem toDigits_isDigit (n : ℕ) (c : Char) (h : c ∈ Nat.toDigits 10 n) : c.isDigit = true :=
  Nat.isDigit_of_mem_toDigits (by omega) (by omega) h

theorem digitText_digitsOf (n : ℕ) : (digitText (digitsOf n)).toList = Nat.toDigits 10 n := by
  rw [digitText_toList, digitsOf, List.map_map]
  conv_rhs => rw [← List.map_id (Nat.toDigits 10 n)]
  refine List.map_congr_left fun c hc => ?_
  have : 48 ≤ c.toNat := (Char.isDigit_iff_toNat.mp (toDigits_isDigit n c hc)).1
  simp only [Function.comp, id]
  rw [show 48 + (c.toNat - 48) = c.toNat by omega, Char.ofNat_toNat]

theorem ofScaled_chars (n : ℕ) (t : ℤ) :
    ∃ z : ℕ, (Decimal.ofScaled n t).chars ++ List.replicate z '0' = Nat.toDigits 10 n ∧
      (Decimal.ofScaled n t).point = t + (Decimal.ofScaled n t).digits.length + z := by
  have hsplit : (digitsOf n).reverse.takeWhile (· == 0) ++ (digitsOf n).reverse.dropWhile (· == 0)
      = (digitsOf n).reverse := List.takeWhile_append_dropWhile
  have hzero : (digitsOf n).reverse.takeWhile (· == 0)
      = List.replicate ((digitsOf n).reverse.takeWhile (· == 0)).length 0 := by
    refine List.eq_replicate_of_mem fun d hd => ?_
    simpa using List.mem_takeWhile_imp hd
  have hds : (Decimal.ofScaled n t).digits
      ++ List.replicate ((digitsOf n).reverse.takeWhile (· == 0)).length 0 = digitsOf n := by
    rw [← List.reverse_inj, ← hsplit]
    conv_rhs => rw [hzero]
    simp [Decimal.ofScaled]
  generalize ((digitsOf n).reverse.takeWhile (· == 0)).length = z at hds
  refine ⟨z, ?_, ?_⟩
  · rw [← digitText_digitsOf, ← hds, digitText_toList, List.map_append, List.map_replicate,
      Decimal.chars, digitText_toList]
  · have := congrArg List.length hds
    rw [List.length_append, List.length_replicate] at this
    simp only [Decimal.ofScaled] at this ⊢
    omega

structure Decimal.Spells (d : Decimal) (v : ℚ) : Prop where
  nonempty : d.chars ≠ []
  digits : ∀ c ∈ d.chars, c.isDigit = true
  value : (Nat.ofDigitChars 10 d.chars 0 : ℚ) * 10 ^ (d.point - d.digits.length) = v

theorem ofScaled_spells (n : ℕ) (t : ℤ) (hn : 0 < n) :
    (Decimal.ofScaled n t).Spells (n * 10 ^ t) := by
  obtain ⟨z, hcs, hp⟩ := ofScaled_chars n t
  have hval : Nat.ofDigitChars 10 (Decimal.ofScaled n t).chars 0 * 10 ^ z = n := by
    rw [mul_comm, ← Nat.ofDigitChars_replicate_zero, ← Nat.ofDigitChars_append, hcs,
      Nat.ofDigitChars_ten_toDigits]
  refine ⟨?_, ?_, ?_⟩
  · intro h0
    rw [h0, Nat.ofDigitChars_nil] at hval
    omega
  · intro c hc
    exact toDigits_isDigit n c (hcs ▸ List.mem_append_left _ hc)
  · rw [hp, show t + ((Decimal.ofScaled n t).digits.length : ℤ) + z
        - (Decimal.ofScaled n t).digits.length = z + t by ring, zpow_add₀ (by norm_num),
      zpow_natCast, ← mul_assoc]
    congr 1
    exact_mod_cast hval

theorem ofDigitChars_zeros (z : ℕ) (cs : List Char) :
    Nat.ofDigitChars 10 (List.replicate z '0' ++ cs) 0 = Nat.ofDigitChars 10 cs 0 := by
  rw [Nat.ofDigitChars_append, Nat.ofDigitChars_replicate_zero, Nat.mul_zero]

theorem isDigit_replicate (z : ℕ) (c : Char) (h : c ∈ List.replicate z '0') : c.isDigit = true := by
  rw [List.eq_of_mem_replicate h]
  rfl

theorem chars_ne_nil_iff (d : Decimal) : d.chars ≠ [] ↔ d.digits ≠ [] := by
  rw [ne_eq, ne_eq, ← List.length_eq_zero_iff, d.length_chars, List.length_eq_zero_iff]

theorem Decimal.chars_take (d : Decimal) (n : ℕ) :
    (digitText (d.digits.take n)).toList = d.chars.take n := by
  rw [chars, digitText_toList, digitText_toList, List.map_take]

theorem Decimal.chars_drop (d : Decimal) (n : ℕ) :
    (digitText (d.digits.drop n)).toList = d.chars.drop n := by
  rw [chars, digitText_toList, digitText_toList, List.map_drop]

theorem pointText_toList (d : Decimal) (n : ℕ) :
    (if (d.digits.drop n).isEmpty then "" else "." ++ digitText (d.digits.drop n)).toList
      = if (d.chars.drop n).isEmpty then [] else '.' :: d.chars.drop n := by
  have he : (d.chars.drop n).isEmpty = (d.digits.drop n).isEmpty := by
    rw [← d.chars_drop, digitText_toList, List.isEmpty_map]
  rw [he, ← d.chars_drop]
  split
  · rfl
  · simp [String.toList_append]

theorem positional_chars (d : Decimal) (v : ℚ) (h : d.Spells v) :
    ∃ s : Spelling, s.Valid ∧ (positional d).toList = s.chars ∧ (s.number : ℚ) * 10 ^ s.power = v := by
  have hne := (chars_ne_nil_iff d).mp h.nonempty
  have hlen := d.length_chars
  unfold positional
  split
  next hp =>
    refine ⟨⟨['0'], List.replicate (-d.point).toNat '0' ++ d.chars, none⟩,
      ⟨by simp, by simp, ?_, by simp⟩, ?_, ?_⟩
    · intro c hc
      rcases List.mem_append.mp hc with hc | hc
      · exact isDigit_replicate _ c hc
      · exact h.digits c hc
    · simp [hne, digitText_toList, Spelling.chars, Spelling.pointChars, Spelling.expoChars,
        Decimal.chars, String.toList_append]
    · have hn : Nat.ofDigitChars 10 (['0'] ++ (List.replicate (-d.point).toNat '0' ++ d.chars)) 0
          = Nat.ofDigitChars 10 d.chars 0 := by
        rw [show (['0'] ++ (List.replicate (-d.point).toNat '0' ++ d.chars))
          = List.replicate ((-d.point).toNat + 1) '0' ++ d.chars by
            simp [List.replicate_succ], ofDigitChars_zeros]
      rw [← h.value, Spelling.number, hn, Spelling.power]
      simp only [List.length_append, List.length_replicate, hlen]
      congr 2
      omega
  next hp =>
    obtain ⟨n, hn⟩ := Int.eq_ofNat_of_zero_le (show 0 ≤ d.point by omega)
    rw [hn, Int.toNat_natCast]
    rcases Nat.lt_or_ge n d.digits.length with hlt | hge
    · -- the point stands among the digits
      have hz : n - (d.digits.take n).length = 0 := by
        rw [List.length_take]
        omega
      refine ⟨⟨d.chars.take n, d.chars.drop n, none⟩, ⟨?_, ?_, ?_, by simp⟩, ?_, ?_⟩
      · simp only [ne_eq, List.take_eq_nil_iff, h.nonempty, or_false]
        omega
      · exact fun c hc => h.digits c (List.mem_of_mem_take hc)
      · exact fun c hc => h.digits c (List.mem_of_mem_drop hc)
      · rw [String.toList_append, pointText_toList, hz, List.replicate_zero, List.append_nil,
          d.chars_take]
        simp [Spelling.chars, Spelling.pointChars, Spelling.expoChars]
      · rw [← h.value, Spelling.number, Spelling.power]
        simp only [List.take_append_drop, List.length_drop, hlen, hn]
        congr 2
        omega
    · -- zeros fill the places up to the point
      have hdrop : d.digits.drop n = [] := List.drop_eq_nil_of_le hge
      have htake : d.digits.take n = d.digits := List.take_of_length_le hge
      refine ⟨⟨d.chars ++ List.replicate (n - d.digits.length) '0', [], none⟩,
        ⟨?_, ?_, by simp, by simp⟩, ?_, ?_⟩
      · simp [h.nonempty]
      · intro c hc
        rcases List.mem_append.mp hc with hc | hc
        · exact h.digits c hc
        · exact isDigit_replicate _ c hc
      · simp [Spelling.chars, Spelling.pointChars, Spelling.expoChars, hdrop, htake,
          digitText_toList, Decimal.chars]
      · rw [← h.value, Spelling.number, Spelling.power]
        simp only [List.append_nil, Nat.ofDigitChars_append, Nat.ofDigitChars_replicate_zero,
          List.length_nil, hn]
        push_cast
        rw [show (n : ℤ) - d.digits.length = ((n - d.digits.length : ℕ) : ℤ) by omega, zpow_natCast]
        simp [mul_comm]

theorem scientific_chars (d : Decimal) (v : ℚ) (h : d.Spells v)
    (hcap : (d.point - 1).natAbs < Numeral.exponentCap) :
    ∃ s : Spelling, s.Valid ∧ (scientific d).toList = s.chars ∧ (s.number : ℚ) * 10 ^ s.power = v := by
  have hlen := d.length_chars
  have hne := (chars_ne_nil_iff d).mp h.nonempty
  have hpos : 0 < d.digits.length := List.length_pos_iff.mpr hne
  -- the exponent is padded by at most one zero
  obtain ⟨pad, hpad, hexpo⟩ : ∃ pad : List Char, (∀ c ∈ pad, c = '0') ∧
      (if (toString (d.point - 1).natAbs).length < 2 then "0" ++ toString (d.point - 1).natAbs
        else toString (d.point - 1).natAbs).toList
        = pad ++ Nat.toDigits 10 (d.point - 1).natAbs := by
    split
    · exact ⟨['0'], by simp, by simp [String.toList_append]⟩
    · exact ⟨[], by simp, by simp⟩
  have hdigits : Nat.ofDigitChars 10 (pad ++ Nat.toDigits 10 (d.point - 1).natAbs) 0
      = (d.point - 1).natAbs := by
    rw [List.eq_replicate_of_mem hpad, ofDigitChars_zeros, Nat.ofDigitChars_ten_toDigits]
  refine ⟨⟨d.chars.take 1, d.chars.drop 1,
    some (d.point - 1 < 0, pad ++ Nat.toDigits 10 (d.point - 1).natAbs)⟩, ⟨?_, ?_, ?_, ?_⟩, ?_, ?_⟩
  · simp [h.nonempty]
  · exact fun c hc => h.digits c (List.mem_of_mem_take hc)
  · exact fun c hc => h.digits c (List.mem_of_mem_drop hc)
  · rintro neg ds hds
    cases hds
    refine ⟨by simp [Nat.toDigits_ne_nil], ?_, by rwa [hdigits]⟩
    intro c hc
    rcases List.mem_append.mp hc with hc | hc
    · rw [hpad c hc]
      rfl
    · exact toDigits_isDigit _ c hc
  · have hsign : (if d.point - 1 < 0 then "-" else "+").toList
        = [if d.point - 1 < 0 then '-' else '+'] := by split <;> rfl
    unfold scientific
    simp only [String.toList_append, hexpo, hsign, pointText_toList, d.chars_take]
    simp [Spelling.chars, Spelling.pointChars, Spelling.expoChars]
  · have hpow : (if d.point - 1 < 0 then -((d.point - 1).natAbs : ℤ) else (d.point - 1).natAbs)
        - ((d.digits.length - 1 : ℕ) : ℤ) = d.point - d.digits.length := by
      split <;> omega
    rw [← h.value, Spelling.number, Spelling.power, List.take_append_drop]
    simp only [hdigits, List.length_drop, hlen, decide_eq_true_eq, hpow]

theorem two_zpow_le (n j : ℕ) (h : 28 * n ≤ 93 * j) : (2 : ℚ) ^ (n : ℤ) ≤ 10 ^ (j : ℤ) := by
  rw [zpow_natCast, zpow_natCast]
  exact_mod_cast two_pow_le n j h

theorem toDigits_bounds (n : ℕ) (hn : 0 < n) (t : ℤ) :
    (10 : ℚ) ^ ((Nat.toDigits 10 n).length + t - 1) ≤ n * 10 ^ t ∧
      (n : ℚ) * 10 ^ t < 10 ^ ((Nat.toDigits 10 n).length + t) := by
  have hpos : 0 < (Nat.toDigits 10 n).length := Nat.length_toDigits_pos
  have ht := ten_zpow_pos t
  constructor
  · have hle : 10 ^ ((Nat.toDigits 10 n).length - 1) ≤ n := by
      rcases Nat.eq_zero_or_pos ((Nat.toDigits 10 n).length - 1) with h0 | h0
      · rw [h0]
        exact hn
      · by_contra hc
        have := (Nat.length_toDigits_le_iff (b := 10) (by omega) h0).mpr (Nat.lt_of_not_le hc)
        omega
    rw [show ((Nat.toDigits 10 n).length + t - 1 : ℤ) = ((Nat.toDigits 10 n).length - 1 : ℕ) + t by
      omega, zpow_add₀ (by norm_num), zpow_natCast]
    exact mul_le_mul_of_nonneg_right (by exact_mod_cast hle) ht.le
  · have hlt : n < 10 ^ (Nat.toDigits 10 n).length :=
      (Nat.length_toDigits_le_iff (by omega) hpos).mp le_rfl
    rw [zpow_add₀ (by norm_num), zpow_natCast]
    exact mul_lt_mul_of_pos_right (by exact_mod_cast hlt) ht

theorem holds_bounds (x : Double) (hf : x.isFinite = true) (hm : 0 < x.mantissa) (v : ℚ)
    (h : x.interval.Holds v) : (10 : ℚ) ^ (-400 : ℤ) < v ∧ v < 10 ^ (400 : ℤ) := by
  obtain ⟨hlo, hhi⟩ := interval_value_bounds x hf hm
  rw [interval_value] at hlo hhi
  have hu := two_zpow_pos x.exponent
  have h1 : (1 : ℚ) ≤ x.mantissa := by exact_mod_cast hm
  have hr : x.reach ≤ 1 / 2 := by
    unfold reach
    split <;> norm_num
  have hpow : (2 : ℚ) ^ (1075 : ℤ) < 10 ^ (400 : ℤ) := by
    exact (two_zpow_le 1075 399 (by norm_num)).trans_lt
      (zpow_lt_zpow_right₀ (by norm_num) (by norm_num))
  have hlow := h.low
  have hhigh := h.high
  rw [interval_low x hm] at hlow
  rw [interval_high] at hhigh
  constructor
  · calc (10 : ℚ) ^ (-400 : ℤ) < 2 ^ (-1075 : ℤ) := by
          rw [zpow_neg, zpow_neg]
          exact inv_strictAnti₀ (two_zpow_pos _) hpow
      _ = 2 ^ (-1074 : ℤ) / 2 := by
          rw [show (-1075 : ℤ) = -1074 - 1 by norm_num, zpow_sub_one₀ (by norm_num), div_eq_mul_inv]
      _ ≤ x.mantissa * 2 ^ x.exponent / 2 := by linarith
      _ ≤ v := by nlinarith
  · calc v ≤ (x.mantissa + 1 / 2) * 2 ^ x.exponent := hhigh
      _ ≤ 2 * (x.mantissa * 2 ^ x.exponent) := by nlinarith
      _ < 2 * 2 ^ (1024 : ℤ) := by linarith
      _ = 2 ^ (1025 : ℤ) := by
          rw [show (1025 : ℤ) = 1 + 1024 by norm_num, zpow_one_add₀ (by norm_num)]
      _ ≤ 2 ^ (1075 : ℤ) := zpow_le_zpow_right₀ (by norm_num) (by norm_num)
      _ < 10 ^ (400 : ℤ) := hpow

theorem render_chars (l : FloatLayout) (hl : l.least ≤ 0 ∧ 0 < l.bound) (x : Double)
    (hf : x.isFinite = true) :
    ∃ s : Spelling, s.Valid ∧
      (x.render l).toList = (if x.negative then ['-'] else []) ++ s.chars ∧
      (x.mantissa = 0 ∧ s.number = 0 ∨
        0 < x.mantissa ∧ x.interval.Holds ((s.number : ℚ) * 10 ^ s.power)) := by
  have hne : x.exponentField ≠ 2047 := by simpa [isFinite] using hf
  have hsign : (if x.negative then "-" else "").toList = if x.negative then ['-'] else [] := by
    cases x.negative <;> rfl
  unfold render
  rw [if_neg (by simp [isNaN, hne]), if_neg (by simp [isInfinite, hne])]
  rcases Nat.eq_zero_or_pos x.mantissa with hm | hm
  · refine ⟨⟨['0'], [], none⟩, ⟨by simp, by simp, by simp, by simp⟩, ?_, .inl ⟨hm, rfl⟩⟩
    simp only [shortest, hm, if_true, List.isEmpty_nil]
    rw [if_neg (by simp; omega), String.toList_append, hsign]
    rfl
  · obtain ⟨d, t, hs, hh⟩ := shortest_holds x hf hm
    have hd : 0 < d := by
      rcases Nat.eq_zero_or_pos d with h0 | h0
      · have := (holds_bounds x hf hm _ hh).1
        rw [h0, Nat.cast_zero, zero_mul] at this
        exact absurd this (not_lt.mpr (ten_zpow_pos _).le)
      · exact h0
    have hsp := ofScaled_spells d t hd
    have hcap : ((Decimal.ofScaled d t).point - 1).natAbs < Numeral.exponentCap := by
      have hp : (Decimal.ofScaled d t).point = (Nat.toDigits 10 d).length + t := by
        simp [Decimal.ofScaled, digitsOf, add_comm]
      obtain ⟨b₁, b₂⟩ := toDigits_bounds d hd t
      obtain ⟨c₁, c₂⟩ := holds_bounds x hf hm _ hh
      have e₁ := (zpow_lt_zpow_iff_right₀ (by norm_num)).mp (b₁.trans_lt c₂)
      have e₂ := (zpow_lt_zpow_iff_right₀ (by norm_num)).mp (c₁.trans b₂)
      rw [hp]
      unfold Numeral.exponentCap
      omega
    rw [hs]
    simp only
    generalize (if (Decimal.ofScaled d t).digits.isEmpty then 0
      else (Decimal.ofScaled d t).point - 1) = e
    split
    · obtain ⟨s, hv, hc, hval⟩ := scientific_chars _ _ hsp hcap
      exact ⟨s, hv, by rw [String.toList_append, hsign, hc], .inr ⟨hm, hval ▸ hh⟩⟩
    · obtain ⟨s, hv, hc, hval⟩ := positional_chars _ _ hsp
      exact ⟨s, hv, by rw [String.toList_append, hsign, hc], .inr ⟨hm, hval ▸ hh⟩⟩

theorem ofMagnitude_zero (x : Double) (hm : x.mantissa = 0) : ofMagnitude x.negative 0 = x := by
  have h0 : x.magnitude = 0 := by
    unfold mantissa at hm
    split at hm
    next he => simp [magnitude, he, hm]
    next => simp at hm
  rw [← h0]
  exact ofMagnitude_magnitude x

theorem ofDecimal_of_holds (x : Double) (hf : x.isFinite = true) (hm : 0 < x.mantissa) (n : ℕ)
    (t : ℤ) (h : x.interval.Holds ((n : ℚ) * 10 ^ t)) :
    Numeral.ofDecimal x.negative n t = .ok x := by
  obtain ⟨c₁, c₂⟩ := holds_bounds x hf hm _ h
  have hn : 0 < n := by
    rcases Nat.eq_zero_or_pos n with h0 | h0
    · rw [h0, Nat.cast_zero, zero_mul] at c₁
      exact absurd c₁ (not_lt.mpr (ten_zpow_pos _).le)
    · exact h0
  obtain ⟨b₁, b₂⟩ := toDigits_bounds n hn t
  have e₁ := (zpow_lt_zpow_iff_right₀ (by norm_num)).mp (b₁.trans_lt c₂)
  have e₂ := (zpow_lt_zpow_iff_right₀ (by norm_num)).mp (c₁.trans b₂)
  have hr := ofRatio?_of_holds x hf hm (decimalRatio n t) (decimalRatio_den n t)
    (by rwa [decimalRatio_value])
  unfold Numeral.ofDecimal
  rw [if_neg hn.ne']
  simp only
  rw [if_neg (by omega), if_neg (by omega), hr]

theorem double_render (l : FloatLayout) (hl : l.least ≤ 0 ∧ 0 < l.bound) (x : Double)
    (hf : x.isFinite = true) : Numeral.double (x.render l).toList = .ok x := by
  obtain ⟨s, hv, hc, h⟩ := render_chars l hl x hf
  rw [hc, Numeral.double_chars s hv]
  rcases h with ⟨hm, hn⟩ | ⟨hm, hh⟩
  · rw [hn, Numeral.ofDecimal, if_pos rfl, ofMagnitude_zero x hm]
  · exact ofDecimal_of_holds x hf hm _ _ hh

end FormatFuzz.Double
