import FormatFuzz.Proofs.Double.Spelling
import FormatFuzz.Timestamp

/-!
# Reading the text of a timestamp

A timestamp whose parts are those of a clock and a calendar is read back from its text, unless its
year has more than four digits or its offset more than twenty-four hours; then its text is that of
no timestamp.
-/

set_option autoImplicit false

namespace FormatFuzz

namespace Numeral

theorem decimalDigits_eq (cs : List Char) (hne : cs ≠ []) (h : ∀ c ∈ cs, c.isDigit = true) :
    decimalDigits cs = some (Nat.ofDigitChars 10 cs 0) := by
  have run : ∀ (cs : List Char), (∀ c ∈ cs, c.isDigit = true) → ∀ acc,
      cs.foldlM (fun acc c => (digit? 10 c).map (acc * 10 + ·)) acc
        = some (Nat.ofDigitChars 10 cs acc) := by
    intro cs
    induction cs with
    | nil => exact fun _ _ => rfl
    | cons c cs ih =>
      intro h acc
      rw [List.foldlM_cons, digit?_of_isDigit c (h c (by simp)), Nat.ofDigitChars_cons,
        ← ih (fun d hd => h d (List.mem_cons_of_mem c hd))]
      simp [Nat.mul_comm]
  simp [decimalDigits, hne, run cs h]

end Numeral

namespace Timestamp

/-- The parts are those of a clock and a calendar. -/
structure Proper (t : Timestamp) : Prop where
  month : 1 ≤ t.month ∧ t.month ≤ 12
  day : 1 ≤ t.day ∧ t.day ≤ daysIn t.year t.month
  hour : t.hour < 24
  minute : t.minute < 60
  second : t.second < 60
  nano : t.nano < 1000000000

def inRange (t : Timestamp) : Bool :=
  t.year < 10000 && t.offset.natAbs < 1500

def paddedChars (width n : ℕ) : List Char := (padded width n).toList

theorem paddedChars_eq (width n : ℕ) : paddedChars width n
    = List.replicate (width - (Nat.toDigits 10 n).length) '0' ++ Nat.toDigits 10 n := by
  simp [paddedChars, padded]

theorem isDigit_paddedChars (width n : ℕ) (c : Char) (h : c ∈ paddedChars width n) :
    c.isDigit = true := by
  rw [paddedChars_eq] at h
  rcases List.mem_append.mp h with h | h
  · exact Double.isDigit_replicate _ c h
  · exact Double.toDigits_isDigit n c h

theorem ofDigitChars_paddedChars (width n : ℕ) :
    Nat.ofDigitChars 10 (paddedChars width n) 0 = n := by
  rw [paddedChars_eq, Double.ofDigitChars_zeros, Nat.ofDigitChars_ten_toDigits]

theorem length_paddedChars (width n : ℕ) (hw : 0 < width) :
    (paddedChars width n).length = width ↔ n < 10 ^ width := by
  rw [← Nat.length_toDigits_le_iff (b := 10) (by omega) hw, paddedChars_eq, List.length_append,
    List.length_replicate]
  omega

theorem paddedChars_ne_nil (width n : ℕ) : paddedChars width n ≠ [] := by
  rw [paddedChars_eq]
  simp [Nat.toDigits_ne_nil]

theorem decimalDigits_paddedChars (width n : ℕ) :
    Numeral.decimalDigits (paddedChars width n) = some n := by
  rw [Numeral.decimalDigits_eq _ (paddedChars_ne_nil width n) (isDigit_paddedChars width n),
    ofDigitChars_paddedChars]

theorem shortNumber_paddedChars (n : ℕ) (h : n < 100) (rest : List Char) :
    shortNumber (paddedChars 2 n ++ rest) = some (n, rest) := by
  have hlen : (paddedChars 2 n).length = 2 := (length_paddedChars 2 n (by omega)).mpr h
  have htake : ((paddedChars 2 n ++ rest).take 2).takeWhile Char.isDigit = paddedChars 2 n := by
    rw [List.take_left' hlen, List.takeWhile_eq_self_iff]
    exact isDigit_paddedChars 2 n
  unfold shortNumber
  simp only
  rw [htake, decimalDigits_paddedChars, hlen, List.drop_left' hlen]
  rfl

theorem after_cons (c : Char) (rest : List Char) : after c (c :: rest) = some rest := by
  simp [after]

theorem takeWhile_paddedChars (width n : ℕ) (c : Char) (rest : List Char)
    (hc : c.isDigit = false) :
    (paddedChars width n ++ c :: rest).takeWhile Char.isDigit = paddedChars width n := by
  rw [List.takeWhile_append_of_pos (isDigit_paddedChars width n)]
  simp [hc]

def endsClock (c : Char) : Prop :=
  c.isDigit = false ∧ c ≠ '.' ∧ c ≠ ','

theorem fraction_none (c : Char) (rest : List Char) (hc : endsClock c) :
    fraction (c :: rest) = (0, c :: rest) := by
  unfold fraction
  cases rest with
  | nil => rfl
  | cons d ds => simp [hc.2.1, hc.2.2]

theorem fraction_digits (ds : List Char) (hne : ds ≠ []) (hd : ∀ c ∈ ds, c.isDigit = true)
    (hlen : ds.length ≤ 9) (c : Char) (rest : List Char) (hc : endsClock c) :
    fraction ('.' :: (ds ++ c :: rest))
      = (Nat.ofDigitChars 10 ds 0 * 10 ^ (9 - ds.length), c :: rest) := by
  obtain ⟨e, es, rfl⟩ := List.exists_cons_of_ne_nil hne
  have htake : (e :: es ++ c :: rest).takeWhile Char.isDigit = e :: es := by
    rw [List.takeWhile_append_of_pos hd]
    simp [hc.1]
  have he : e.isDigit = true := hd e (by simp)
  unfold fraction
  simp only [List.cons_append, beq_self_eq_true, Bool.true_or, he, Bool.and_self, if_true]
  rw [← List.cons_append, htake, List.take_of_length_le hlen,
    Numeral.decimalDigits_eq _ hne hd, List.drop_left]
  rfl

theorem fractionText_toList (n : ℕ) (h0 : n ≠ 0) (h : n < 1000000000) :
    ∃ ds : List Char, (fractionText n).toList = '.' :: ds ∧ ds ≠ [] ∧
      (∀ c ∈ ds, c.isDigit = true) ∧ ds.length ≤ 9 ∧
      Nat.ofDigitChars 10 ds 0 * 10 ^ (9 - ds.length) = n := by
  have hlen : (paddedChars 9 n).length = 9 := (length_paddedChars 9 n (by omega)).mpr (by omega)
  have hsplit : (paddedChars 9 n).reverse.takeWhile (· == '0')
      ++ (paddedChars 9 n).reverse.dropWhile (· == '0') = (paddedChars 9 n).reverse :=
    List.takeWhile_append_dropWhile
  have hzero : (paddedChars 9 n).reverse.takeWhile (· == '0')
      = List.replicate ((paddedChars 9 n).reverse.takeWhile (· == '0')).length '0' := by
    refine List.eq_replicate_of_mem fun d hd => ?_
    simpa using List.mem_takeWhile_imp hd
  have hds : ((paddedChars 9 n).reverse.dropWhile (· == '0')).reverse
      ++ List.replicate ((paddedChars 9 n).reverse.takeWhile (· == '0')).length '0'
      = paddedChars 9 n := by
    rw [← List.reverse_inj, ← hsplit]
    conv_rhs => rw [hzero]
    simp
  generalize ((paddedChars 9 n).reverse.takeWhile (· == '0')).length = z at hds
  have htext : (fractionText n).toList
      = '.' :: ((paddedChars 9 n).reverse.dropWhile (· == '0')).reverse := by
    simp [fractionText, h0, paddedChars, String.toList_append]
  generalize ((paddedChars 9 n).reverse.dropWhile (· == '0')).reverse = ds at hds htext
  have hz : ds.length + z = 9 := by rw [← hlen, ← hds]; simp
  have hval : Nat.ofDigitChars 10 ds 0 * 10 ^ z = n := by
    rw [mul_comm, ← Nat.ofDigitChars_replicate_zero, ← Nat.ofDigitChars_append, hds,
      ofDigitChars_paddedChars]
  refine ⟨ds, htext, ?_, ?_, by omega, ?_⟩
  · rintro rfl
    rw [Nat.ofDigitChars_nil] at hval
    omega
  · exact fun c hc => isDigit_paddedChars 9 n c (hds ▸ List.mem_append_left _ hc)
  · rw [show 9 - ds.length = z by omega]
    exact hval

theorem fraction_fractionText (n : ℕ) (h : n < 1000000000) (c : Char) (rest : List Char)
    (hc : endsClock c) : fraction ((fractionText n).toList ++ c :: rest) = (n, c :: rest) := by
  by_cases h0 : n = 0
  · rw [h0]
    exact fraction_none c rest hc
  · obtain ⟨ds, ht, hne, hd, hlen, hval⟩ := fractionText_toList n h0 h
    rw [ht, List.cons_append, fraction_digits ds hne hd hlen c rest hc, hval]

theorem clock?_clockText (t u : Timestamp) (h : t.Proper) (c : Char) (rest : List Char)
    (hc : endsClock c) :
    clock? u (t.clockText.toList ++ c :: rest)
      = some ({ u with hour := t.hour, minute := t.minute, second := t.second, nano := t.nano },
        c :: rest) := by
  have htext : t.clockText.toList ++ c :: rest = paddedChars 2 t.hour ++ ':' ::
      (paddedChars 2 t.minute ++ ':' :: (paddedChars 2 t.second ++
        ((fractionText t.nano).toList ++ c :: rest))) := by
    simp [clockText, paddedChars, String.toList_append]
  have h1 := h.hour
  have h2 := h.minute
  have h3 := h.second
  rw [htext]
  unfold clock?
  simp [shortNumber_paddedChars _ (show t.hour < 100 by omega), after_cons,
    shortNumber_paddedChars _ (show t.minute < 100 by omega),
    shortNumber_paddedChars _ (show t.second < 100 by omega),
    fraction_fractionText t.nano h.nano c rest hc, h1, h2, h3]

def zoneText (t : Timestamp) : String := if t.offset = 0 then "Z" else offsetText ":" t

theorem zone?_length (cs : List Char) (h1 : cs.length ≠ 1) (h6 : cs.length ≠ 6) :
    zone? cs = none := by
  unfold zone?
  split
  · simp at h1
  · simp at h6
  · rfl

theorem zone?_offsetText (t : Timestamp) :
    zone? (offsetText ":" t).toList = if t.offset.natAbs < 1500 then some t.offset else none := by
  have htext : (offsetText ":" t).toList = (if t.offset < 0 then '-' else '+')
      :: (paddedChars 2 (t.offset.natAbs / 60) ++ ':' :: paddedChars 2 (t.offset.natAbs % 60)) := by
    unfold offsetText
    split <;> simp [paddedChars, String.toList_append]
  have hm : (paddedChars 2 (t.offset.natAbs % 60)).length = 2 :=
    (length_paddedChars 2 _ (by omega)).mpr (by omega)
  rw [htext]
  by_cases hh : (paddedChars 2 (t.offset.natAbs / 60)).length = 2
  · obtain ⟨a, b, hab⟩ := List.length_eq_two.mp hh
    obtain ⟨c, d, hcd⟩ := List.length_eq_two.mp hm
    have h₁ := decimalDigits_paddedChars 2 (t.offset.natAbs / 60)
    have h₂ := decimalDigits_paddedChars 2 (t.offset.natAbs % 60)
    rw [hab] at h₁ ⊢
    rw [hcd] at h₂ ⊢
    simp only [List.cons_append, List.nil_append, zone?, h₁, h₂]
    by_cases hlt : t.offset.natAbs < 1500
    · rw [if_neg (by simp; omega), if_pos hlt]
      by_cases hn : t.offset < 0
      · simp only [hn, if_true, beq_self_eq_true, show ('-' == '+') = false from rfl,
          Bool.false_eq_true, if_false, Option.some.injEq]
        omega
      · simp only [hn, if_false, beq_self_eq_true, if_true, Option.some.injEq]
        omega
    · rw [if_pos (by simp; omega), if_neg hlt]
  · have hbig : ¬ t.offset.natAbs < 1500 := by
      intro hlt
      exact hh ((length_paddedChars 2 _ (by omega)).mpr (by omega))
    rw [if_neg hbig]
    exact zone?_length _ (by simp) (by simp; omega)

theorem zone?_zoneText (t : Timestamp) :
    zone? t.zoneText.toList = if t.offset.natAbs < 1500 then some t.offset else none := by
  unfold zoneText
  split
  next h =>
    simp only [h]
    rfl
  next => exact zone?_offsetText t

theorem zoneText_cons (t : Timestamp) : ∃ c rest, t.zoneText.toList = c :: rest ∧ endsClock c := by
  unfold zoneText
  split
  · exact ⟨'Z', [], rfl, by decide, by decide, by decide⟩
  · unfold offsetText
    split
    · exact ⟨'-', _, by simp [String.toList_append]; rfl, by decide, by decide, by decide⟩
    · exact ⟨'+', _, by simp [String.toList_append]; rfl, by decide, by decide, by decide⟩

theorem text_toList (t : Timestamp) : t.text.toList = paddedChars 4 t.year ++ '-' ::
    (paddedChars 2 t.month ++ '-' :: (paddedChars 2 t.day ++ 'T' ::
      (t.clockText.toList ++ t.zoneText.toList))) := by
  simp [text, dateText, zoneText, paddedChars, String.toList_append]

theorem withTime?_text (t u : Timestamp) (h : t.Proper) :
    withTime? u ('T' :: (t.clockText.toList ++ t.zoneText.toList)) =
      if t.offset.natAbs < 1500 then
        some { u with hour := t.hour, minute := t.minute, second := t.second, nano := t.nano,
                      offset := t.offset }
      else none := by
  obtain ⟨c, rest, hz, hc⟩ := t.zoneText_cons
  have hzone := zone?_zoneText t
  rw [hz] at hzone ⊢
  simp only [withTime?, clock?_clockText t u h c rest hc, hzone, beq_self_eq_true, Bool.true_or,
    if_true]
  split <;> rfl

/-- A proper timestamp is read back from its text if it is in range; else its text is that of no
timestamp. -/
theorem ofText?_text (t : Timestamp) (h : t.Proper) :
    ofText? t.text = if t.inRange then some t else none := by
  have hys : t.text.toList.takeWhile Char.isDigit = paddedChars 4 t.year := by
    rw [text_toList, takeWhile_paddedChars _ _ _ _ rfl]
  unfold ofText?
  simp only [hys]
  by_cases hy : t.year < 10000
  · have hlen : (paddedChars 4 t.year).length = 4 := (length_paddedChars 4 _ (by omega)).mpr hy
    have hdrop : t.text.toList.drop 4 = '-' :: (paddedChars 2 t.month ++ '-' ::
        (paddedChars 2 t.day ++ 'T' :: (t.clockText.toList ++ t.zoneText.toList))) := by
      rw [text_toList, List.drop_left' hlen]
    have hmonth := h.month
    have hday := h.day
    have hd31 : daysIn t.year t.month ≤ 31 := by
      unfold daysIn
      repeat' split
      all_goals omega
    simp only [hlen, ne_eq, not_true, if_false, decimalDigits_paddedChars, hdrop, after_cons,
      Option.bind_eq_bind, Option.bind_some,
      shortNumber_paddedChars _ (show t.month < 100 by omega),
      shortNumber_paddedChars _ (show t.day < 100 by omega)]
    rw [if_pos (by simp [hmonth, hday]), withTime?_text t _ h]
    simp [inRange, hy]
  · have hlen : (paddedChars 4 t.year).length ≠ 4 := by
      rw [ne_eq, length_paddedChars 4 _ (by omega)]
      exact hy
    simp [hlen, inRange, hy]

theorem fraction_lt (cs : List Char) : (fraction cs).1 < 1000000000 := by
  unfold fraction
  split
  next mark d rest =>
    split
    · simp only
      generalize hnine : ((d :: rest).takeWhile Char.isDigit).take 9 = nine
      have hlen : nine.length ≤ 9 := by
        rw [← hnine]
        exact List.length_take_le 9 _
      have hlt : (Numeral.decimalDigits nine).getD 0 < 10 ^ nine.length := by
        cases h : Numeral.decimalDigits nine with
        | none => exact Nat.pow_pos (by decide)
        | some n => exact Numeral.decimalDigits_lt nine n h
      calc (Numeral.decimalDigits nine).getD 0 * 10 ^ (9 - nine.length)
          < 10 ^ nine.length * 10 ^ (9 - nine.length) :=
            Nat.mul_lt_mul_of_pos_right hlt (Nat.pow_pos (by decide))
        _ = 1000000000 := by rw [← Nat.pow_add, Nat.add_sub_cancel' hlen]
    · exact Nat.zero_lt_succ _
  next => exact Nat.zero_lt_succ _

theorem proper_clock? (t u : Timestamp) (cs rest : List Char) (ht : t.Proper)
    (h : clock? t cs = some (u, rest)) : u.Proper := by
  unfold clock? at h
  obtain ⟨⟨hour, r⟩, -, h⟩ := Option.bind_eq_some_iff.mp h
  obtain ⟨r, -, h⟩ := Option.bind_eq_some_iff.mp h
  obtain ⟨⟨minute, r⟩, -, h⟩ := Option.bind_eq_some_iff.mp h
  obtain ⟨r, -, h⟩ := Option.bind_eq_some_iff.mp h
  obtain ⟨⟨second, r⟩, -, h⟩ := Option.bind_eq_some_iff.mp h
  simp only at h
  split at h
  next hb =>
    cases h
    simp only [Bool.and_eq_true, decide_eq_true_eq] at hb
    exact ⟨ht.month, ht.day, hb.1.1, hb.1.2, hb.2, fraction_lt r⟩
  next => cases h

theorem proper_withTime? (t u : Timestamp) (cs : List Char) (ht : t.Proper)
    (h : withTime? t cs = some u) : u.Proper := by
  unfold withTime? at h
  split at h
  next =>
    cases h
    exact ht
  next c r =>
    split at h
    · split at h
      next v r hv =>
        obtain ⟨z, -, rfl⟩ := Option.map_eq_some_iff.mp h
        have hv := proper_clock? t v _ r ht hv
        exact ⟨hv.month, hv.day, hv.hour, hv.minute, hv.second, hv.nano⟩
      next => cases h
    · split at h
      · split at h
        next v hv =>
          cases h
          exact proper_clock? t _ _ _ ht hv
        next => cases h
      · cases h

theorem proper_ofText? (s : String) (t : Timestamp) (h : ofText? s = some t) : t.Proper := by
  unfold ofText? at h
  simp only at h
  split at h
  · cases h
  · obtain ⟨y, -, h⟩ := Option.bind_eq_some_iff.mp h
    obtain ⟨r, -, h⟩ := Option.bind_eq_some_iff.mp h
    obtain ⟨⟨m, r⟩, -, h⟩ := Option.bind_eq_some_iff.mp h
    obtain ⟨r, -, h⟩ := Option.bind_eq_some_iff.mp h
    obtain ⟨⟨d, r⟩, -, h⟩ := Option.bind_eq_some_iff.mp h
    simp only at h
    split at h
    next hb =>
      simp only [Bool.and_eq_true, decide_eq_true_eq] at hb
      exact proper_withTime? _ t r
        ⟨⟨hb.1.1.1, hb.1.1.2⟩, ⟨hb.1.2, hb.2⟩, Nat.zero_lt_succ _, Nat.zero_lt_succ _,
          Nat.zero_lt_succ _, Nat.zero_lt_succ _⟩ h
    next => cases h

end Timestamp

end FormatFuzz
