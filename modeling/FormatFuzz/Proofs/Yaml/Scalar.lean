import FormatFuzz.Proofs.Timestamp
import FormatFuzz.Schema.Encode

/-!
# Plain scalars that values are written as

Integers of a word, truth values and timestamps are read back from the plain text that stands for
them. A float is read back unless its text is that of an integer, and then it is that integer; all
that is no number is read as one and the same.
-/

set_option autoImplicit false

namespace FormatFuzz

namespace Numeral

def signed (neg : Bool) (s : Spelling) : List Char :=
  (if neg then ['-'] else []) ++ s.chars

theorem Spelling.chars_cons (s : Spelling) (hs : s.Valid) :
    ∃ c cs, s.chars = c :: cs ∧ c.isDigit = true := by
  obtain ⟨w, ws, hw⟩ := List.exists_cons_of_ne_nil hs.nonempty
  exact ⟨w, ws ++ (s.pointChars ++ s.expoChars), by rw [chars, hw, List.cons_append],
    hs.whole w (by simp [hw])⟩

theorem Spelling.mem_chars (s : Spelling) (hs : s.Valid) (c : Char) (h : c ∈ s.chars) :
    c.isDigit = true ∨ c ∈ ['.', 'e', '-', '+'] := by
  rw [chars, List.mem_append, List.mem_append] at h
  rcases h with h | h | h
  · exact .inl (hs.whole c h)
  · rw [pointChars] at h
    split at h
    · simp at h
    · rcases List.mem_cons.mp h with rfl | h
      · simp
      · exact .inl (hs.places c h)
  · rw [expoChars] at h
    split at h
    next => simp at h
    next neg ds he =>
      rcases List.mem_cons.mp h with rfl | h
      · simp
      · rcases List.mem_cons.mp h with rfl | h
        · cases neg <;> simp
        · exact .inl ((hs.expo neg ds he).2.1 c h)

theorem filter_signed (neg : Bool) (s : Spelling) (hs : s.Valid) :
    (signed neg s).filter (· != '_') = signed neg s := by
  rw [List.filter_eq_self]
  intro c hc
  rw [bne_iff_ne]
  rintro rfl
  rcases List.mem_append.mp hc with hc | hc
  · cases neg <;> simp at hc
  · rcases s.mem_chars hs _ hc with h | h
    · simp at h
    · simp at h

theorem dropWhile_chars (s : Spelling) (hs : s.Valid) :
    s.chars.takeWhile Char.isDigit = s.whole ∧
      s.chars.dropWhile Char.isDigit = s.pointChars ++ s.expoChars := by
  have hrest : (s.pointChars ++ s.expoChars).takeWhile Char.isDigit = [] ∧
      (s.pointChars ++ s.expoChars).dropWhile Char.isDigit = s.pointChars ++ s.expoChars := by
    rw [Spelling.pointChars, Spelling.expoChars]
    split
    · split <;> simp
    · simp
  rw [Spelling.chars, List.takeWhile_append_of_pos hs.whole, List.dropWhile_append_of_pos hs.whole,
    hrest.1, hrest.2, List.append_nil]
  exact ⟨rfl, rfl⟩

theorem sign_signed (neg : Bool) (s : Spelling) (hs : s.Valid) :
    sign (signed neg s) = (neg, s.chars) := by
  obtain ⟨c, cs, hc, hd⟩ := s.chars_cons hs
  rw [signed, hc]
  exact sign_digit neg c cs hd

theorem isFloatText_signed (neg : Bool) (s : Spelling) (hs : s.Valid) :
    Yaml.isFloatText (signed neg s) = true := by
  obtain ⟨ht, hd⟩ := dropWhile_chars s hs
  have hw : s.whole.isEmpty = false := by simpa using hs.nonempty
  have hexpo : ∀ neg ds, s.expo = some (neg, ds) →
      (exponent? ((if neg then '-' else '+') :: ds)).isSome = true := by
    intro neg ds he
    obtain ⟨hne, hdig, hcap⟩ := hs.expo neg ds he
    rw [exponent?_digits neg ds hne hdig hcap]
    rfl
  have hplaces : ∀ rest, (s.places ++ 'e' :: rest).takeWhile Char.isDigit = s.places ∧
      (s.places ++ 'e' :: rest).dropWhile Char.isDigit = 'e' :: rest := by
    intro rest
    rw [List.takeWhile_append_of_pos hs.places, List.dropWhile_append_of_pos hs.places]
    simp
  have hplaces' : s.places.takeWhile Char.isDigit = s.places ∧
      s.places.dropWhile Char.isDigit = [] := by
    rw [List.takeWhile_eq_self_iff, List.dropWhile_eq_nil_iff]
    exact ⟨hs.places, hs.places⟩
  unfold Yaml.isFloatText
  rw [sign_signed neg s hs]
  simp only [ht, hd, hw, Spelling.pointChars, Spelling.expoChars]
  cases he : s.expo with
  | none =>
    by_cases hp : s.places = []
    · simp [hp]
    · simp [hp, hplaces']
  | some e =>
    obtain ⟨eneg, ds⟩ := e
    have := hexpo eneg ds he
    by_cases hp : s.places = []
    · simp [hp, this]
    · simp [hp, hplaces, this]

end Numeral

theorem Timestamp.ofText?_none (s : String)
    (h : (s.toList.dropWhile Char.isDigit).head? ≠ some '-') : Timestamp.ofText? s = none := by
  unfold Timestamp.ofText?
  simp only
  split
  · rfl
  next hlen =>
    rw [not_not] at hlen
    have hdrop : s.toList.drop 4 = s.toList.dropWhile Char.isDigit := by
      have hsplit := List.takeWhile_append_dropWhile (p := Char.isDigit) (l := s.toList)
      conv_lhs => rw [← hsplit]
      exact List.drop_left' hlen
    rw [hdrop]
    have hafter : Timestamp.after '-' (s.toList.dropWhile Char.isDigit) = none := by
      cases hd : s.toList.dropWhile Char.isDigit with
      | nil => rfl
      | cons c cs =>
        rw [hd] at h
        have : c ≠ '-' := by simpa using h
        simp [Timestamp.after, this]
    rw [hafter]
    cases Numeral.decimalDigits (s.toList.takeWhile Char.isDigit) with
    | none => rfl
    | some y => rfl

namespace Double

theorem eq_infinity (x : Double) (h : x.isInfinite = true) : x = infinity x.negative := by
  have hm : x.magnitude = infiniteMagnitude := by
    simp only [isInfinite, Bool.and_eq_true, beq_iff_eq] at h
    simp [magnitude, h.1, h.2, infiniteMagnitude]
  rw [infinity, ← hm, ofMagnitude_magnitude]

theorem isFinite_of (x : Double) (hn : ¬ x.isNaN = true) (hi : ¬ x.isInfinite = true) :
    x.isFinite = true := by
  simp only [isNaN, isInfinite, isFinite, Bool.and_eq_true, beq_iff_eq, bne_iff_ne, ne_eq,
    not_and, not_not] at hn hi ⊢
  exact fun h => hi h (hn h)

end Double

namespace Yaml

def words : List String :=
  nullWords ++ trueWords ++ falseWords ++ nanWords ++ infWords ++ negInfWords

theorem words_digit : ∀ w ∈ words,
    (w.toList.dropWhile (· == '-')).head?.any Char.isDigit = false := by
  decide

theorem not_word (s : String) (neg : Bool) (c : Char) (cs : List Char)
    (hs : s.toList = (if neg then ['-'] else []) ++ c :: cs) (hc : c.isDigit = true) :
    s ∉ words := by
  intro hw
  have hm : c ≠ '-' := by
    rintro rfl
    simp at hc
  have hh : (s.toList.dropWhile (· == '-')).head? = some c := by cases neg <;> simp [hs, hm]
  have hd := words_digit s hw
  rw [hh, Option.any_some, hc] at hd
  cases hd

theorem plainValue_digit (s : String) (neg : Bool) (c : Char) (cs : List Char)
    (hs : s.toList = (if neg then ['-'] else []) ++ c :: cs) (hc : c.isDigit = true) :
    plainValue s = ((Timestamp.ofText? s).map Value.time <|> number? s <|>
      markedInteger? s).getD (.str s) := by
  have hw := not_word s neg c cs hs hc
  simp only [words, List.mem_append, not_or] at hw
  obtain ⟨⟨⟨⟨⟨h1, h2⟩, h3⟩, h4⟩, h5⟩, h6⟩ := hw
  have hn : startsLikeNumber s = true := by
    unfold startsLikeNumber
    rw [hs]
    cases neg <;> simp [hc]
  unfold plainValue
  rw [if_neg h1, if_neg h2, if_neg h3, if_neg h4, if_neg h5, if_neg h6, if_pos hn]

theorem ofText?_signed (s : String) (neg : Bool) (p : Numeral.Spelling) (hp : p.Valid)
    (hs : s.toList = Numeral.signed neg p) : Timestamp.ofText? s = none := by
  obtain ⟨c, cs, hc, hd⟩ := p.chars_cons hp
  cases neg with
  | true =>
    -- no digit comes first, so there are not four of them
    have : s.toList.takeWhile Char.isDigit = [] := by simp [hs, Numeral.signed]
    simp [Timestamp.ofText?, this]
  | false =>
    refine Timestamp.ofText?_none s ?_
    rw [hs, Numeral.signed, if_neg (by decide), List.nil_append, (Numeral.dropWhile_chars p hp).2,
      Numeral.Spelling.pointChars, Numeral.Spelling.expoChars]
    split
    · split <;> simp
    · simp

def IntRange (v : ℤ) : Prop := -(Word.half : ℤ) ≤ v ∧ v < Word.size

theorem intRange_signed (v : ℤ) (h : Word.isSigned v = true) : IntRange v := by
  simp only [Word.isSigned, Bool.and_eq_true, decide_eq_true_eq] at h
  constructor
  · exact h.1
  · have : (Word.half : Int) ≤ Word.size := by decide
    omega

theorem plainValue_signed (s : String) (neg : Bool) (p : Numeral.Spelling) (hp : p.Valid)
    (hs : s.toList = Numeral.signed neg p) (x : Double)
    (hx : Numeral.double s.toList = .ok x) :
    (∃ v, IntRange v ∧ plainValue s = .int v) ∨ plainValue s = .float x := by
  obtain ⟨c, cs, hc, hd⟩ := p.chars_cons hp
  have hfilter : s.toList.filter (· != '_') = s.toList := by
    rw [hs, Numeral.filter_signed neg p hp]
  have hfloat : isFloatText s.toList = true := by
    rw [hs, Numeral.isFloatText_signed neg p hp]
  rw [plainValue_digit s neg c cs (by rw [hs, Numeral.signed, hc]) hd,
    ofText?_signed s neg p hp hs]
  unfold number?
  simp only [hfilter, hfloat, hx, if_true]
  cases hi : Numeral.integer? s.toList with
  | none => right; rfl
  | some v =>
    simp only
    split
    next h =>
      left
      have hw : -(Word.half : ℤ) ≤ v ∧ v < Word.half := by simpa [Word.isSigned] using h
      exact ⟨v, ⟨hw.1, by simp only [Word.half, Word.size] at hw ⊢; omega⟩, rfl⟩
    next =>
      split
      next h =>
        left
        simp only [Bool.and_eq_true, decide_eq_true_eq] at h
        exact ⟨v, ⟨by simp only [Word.half] at h ⊢; omega, h.1.2⟩, rfl⟩
      next => right; rfl

theorem toString_signed (v : ℤ) : ∃ (neg : Bool) (p : Numeral.Spelling), p.Valid ∧
    (toString v).toList = Numeral.signed neg p := by
  have valid : ∀ n : ℕ, (⟨Nat.toDigits 10 n, [], none⟩ : Numeral.Spelling).Valid := fun n =>
    ⟨Nat.toDigits_ne_nil, fun c hc => Double.toDigits_isDigit n c hc, by simp, by simp⟩
  cases v with
  | ofNat n =>
    refine ⟨false, ⟨Nat.toDigits 10 n, [], none⟩, valid n, ?_⟩
    change (toString (n : ℤ)).toList = _
    rw [Numeral.toList_toString_ofNat]
    simp [Numeral.signed, Numeral.Spelling.chars, Numeral.Spelling.pointChars,
      Numeral.Spelling.expoChars]
  | negSucc n =>
    refine ⟨true, ⟨Nat.toDigits 10 (n + 1), [], none⟩, valid (n + 1), ?_⟩
    rw [Numeral.toList_toString_negSucc]
    simp [Numeral.signed, Numeral.Spelling.chars, Numeral.Spelling.pointChars,
      Numeral.Spelling.expoChars]

theorem plainValue_toString (v : ℤ) (h : IntRange v) : plainValue (toString v) = .int v := by
  obtain ⟨neg, p, hp, hs⟩ := toString_signed v
  obtain ⟨c, cs, hc, hd⟩ := p.chars_cons hp
  have hfilter : (toString v).toList.filter (· != '_') = (toString v).toList := by
    rw [hs, Numeral.filter_signed neg p hp]
  have hplus : (toString v).toList.head? ≠ some '+' := by
    rw [hs, Numeral.signed, hc]
    cases neg with
    | true => simp
    | false =>
      have : c ≠ '+' := by
        rintro rfl
        simp at hd
      simpa using this
  rw [plainValue_digit _ neg c cs (by rw [hs, Numeral.signed, hc]) hd, ofText?_signed _ neg p hp hs]
  unfold number?
  simp only [hfilter, Numeral.integer?_toString]
  by_cases hw : Word.isSigned v = true
  · simp [hw]
  · have h2 : (Word.half : ℤ) ≤ v := by
      have := h.1
      simp only [Word.isSigned, Bool.and_eq_true, decide_eq_true_eq, not_and, not_lt] at hw
      exact hw this
    have hu : (decide ((Word.half : ℤ) ≤ v) && decide (v < (Word.size : ℤ)) &&
        ((toString v).toList.head? != some '+')) = true := by
      simp only [Bool.and_eq_true, decide_eq_true_eq, bne_iff_ne]
      exact ⟨⟨h2, h.2⟩, hplus⟩
    rw [if_neg hw, if_pos hu]
    rfl

/-- What a float is read as: the integer its text spells, or itself; all that is no number is read
alike. -/
theorem plainValue_floatText (x : Double) :
    (∃ v, IntRange v ∧ plainValue (Encode.floatText x) = .int v) ∨
      plainValue (Encode.floatText x) = .float x ∨
      plainValue (Encode.floatText x) = .float Double.nan := by
  simp only [Encode.floatText, Number.text]
  split
  · right; right; rfl
  next hnan =>
    split
    next hinf =>
      right; left
      have hx := Double.eq_infinity x hinf
      split
      next hneg =>
        rw [hneg] at hx
        rw [hx]
        rfl
      next hneg =>
        rw [Bool.not_eq_true] at hneg
        rw [hneg] at hx
        rw [hx]
        rfl
    next hinf =>
      have hf := Double.isFinite_of x hnan hinf
      have hl : FloatLayout.general.least ≤ 0 ∧ 0 < FloatLayout.general.bound := by decide
      obtain ⟨p, hp, hs, -⟩ := Double.render_chars FloatLayout.general hl x hf
      rcases plainValue_signed _ x.negative p hp hs x (Double.double_render _ hl x hf) with h | h
      · exact .inl h
      · exact .inr (.inl h)

theorem plainValue_nan : plainValue (Encode.floatText Double.nan) = .float Double.nan := by
  have h : Encode.floatText Double.nan = ".nan" := by decide +kernel
  rw [h]
  rfl

theorem digits_none (b : ℕ) (cs : List Char) (after opened : Bool) (acc : ℕ)
    (h : '-' ∈ cs) : Numeral.digits b after opened acc cs = none := by
  induction cs generalizing after opened acc with
  | nil => simp at h
  | cons c cs ih =>
    rw [Numeral.digits]
    rcases List.mem_cons.mp h with rfl | h
    · simp [Numeral.digit?, Text.hexValue]
    · split
      · split
        · exact ih _ _ _ h
        · rfl
      · split
        · exact ih _ _ _ h
        · rfl

theorem mem_base (a b x : Char) (cs : List Char) (h : x ∈ cs) :
    x ∈ (Numeral.base (a :: b :: cs)).2 := by
  unfold Numeral.base
  split
  next c cs' he =>
    obtain ⟨rfl, rfl, rfl⟩ : '0' = a ∧ c = b ∧ cs' = cs := by simpa using he.symm
    repeat' split
    all_goals simp [h]
  next => simp [h]

theorem number?_dashed (s : String) (a b c : Char) (ds rest : List Char)
    (hs : s.toList = a :: b :: c :: (ds ++ '-' :: rest))
    (hd : ∀ e ∈ a :: b :: c :: ds, e.isDigit = true) :
    number? s = none ∧ markedInteger? s = none := by
  have hkeep : (a :: b :: c :: ds).filter (· != '_') = a :: b :: c :: ds := by
    rw [List.filter_eq_self]
    intro e he
    rw [bne_iff_ne]
    rintro rfl
    simpa using hd _ he
  have hcs : s.toList.filter (· != '_')
      = a :: b :: c :: (ds ++ '-' :: rest.filter (· != '_')) := by
    rw [hs, show a :: b :: c :: (ds ++ '-' :: rest) = (a :: b :: c :: ds) ++ '-' :: rest by simp,
      List.filter_append, hkeep]
    simp
  generalize rest.filter (· != '_') = rest' at hcs
  have ha : a.isDigit = true := hd a (by simp)
  have hb : b.isDigit = true := hd b (by simp)
  have hsign : Numeral.sign (a :: b :: c :: (ds ++ '-' :: rest'))
      = (false, a :: b :: c :: (ds ++ '-' :: rest')) :=
    Numeral.sign_digit false a _ ha
  have hint : Numeral.integer? (a :: b :: c :: (ds ++ '-' :: rest')) = none := by
    have hbase : '-' ∈ (Numeral.base (a :: b :: c :: (ds ++ '-' :: rest'))).2 :=
      mem_base a b '-' _ (by simp)
    rw [Numeral.integer?, hsign]
    simp only [Numeral.natural?, digits_none _ _ _ _ _ hbase, ite_self]
    rfl
  have hfloat : isFloatText (a :: b :: c :: (ds ++ '-' :: rest')) = false := by
    have hdrop : (a :: b :: c :: (ds ++ '-' :: rest')).dropWhile Char.isDigit = '-' :: rest' := by
      rw [show a :: b :: c :: (ds ++ '-' :: rest') = (a :: b :: c :: ds) ++ '-' :: rest' by simp,
        List.dropWhile_append_of_pos hd]
      simp
    unfold isFloatText
    rw [hsign]
    simp [hdrop]
  constructor
  · unfold number?
    simp only [hcs, hint, hfloat]
    rfl
  · unfold markedInteger?
    simp only [hcs]
    split
    · simp_all
    · simp_all
    · rfl

theorem plainValue_time (t : Timestamp) (h : t.Proper) :
    plainValue t.text = if t.inRange then .time t else .str t.text := by
  have hlen : 3 ≤ (Timestamp.paddedChars 4 t.year).length := by
    rw [Timestamp.paddedChars_eq, List.length_append, List.length_replicate]
    omega
  obtain ⟨a, b, c, ds, hy⟩ : ∃ a b c ds, Timestamp.paddedChars 4 t.year = a :: b :: c :: ds := by
    match hy : Timestamp.paddedChars 4 t.year, hlen with
    | a :: b :: c :: ds, _ => exact ⟨a, b, c, ds, rfl⟩
  have hd : ∀ e ∈ a :: b :: c :: ds, e.isDigit = true := by
    rw [← hy]
    exact Timestamp.isDigit_paddedChars 4 t.year
  have htext := t.text_toList
  rw [hy] at htext
  obtain ⟨h1, h2⟩ := number?_dashed t.text a b c ds _ (by rw [htext]; rfl) hd
  rw [plainValue_digit t.text false a _ (by rw [htext]; rfl) (hd a (by simp)), t.ofText?_text h,
    h1, h2]
  split <;> rfl

theorem spelledFloat_eq (cs : List Char) (v : Value) (h : (if isFloatText cs then
      match Numeral.double cs with
      | .ok x => some (Value.float x)
      | .error _ => none
    else none) = some v) : ∃ x, v = .float x := by
  split at h
  · split at h
    next x _ =>
      cases h
      exact ⟨x, rfl⟩
    next => cases h
  · cases h

theorem number?_cases (s : String) (v : Value) (h : number? s = some v) :
    (∃ i, v = .int i ∧ IntRange i) ∨ ∃ x, v = .float x := by
  unfold number? at h
  simp only at h
  split at h
  next i _ =>
    split at h
    next hs =>
      cases h
      exact .inl ⟨i, rfl, intRange_signed i hs⟩
    · split at h
      next hb =>
        cases h
        simp only [Bool.and_eq_true, decide_eq_true_eq] at hb
        exact .inl ⟨i, rfl, by omega, hb.1.2⟩
      next => exact .inr (spelledFloat_eq _ v h)
  next => exact .inr (spelledFloat_eq _ v h)

theorem spelledInteger_eq (b : ℕ) (cs : List Char) (v : Value) (h : (match Numeral.upTo b
      (Word.half + (if (Numeral.sign cs).1 then 1 else 0)) (Numeral.sign cs).2 with
      | .ok n => some (Value.int (if (Numeral.sign cs).1 then -(n : Int) else n))
      | .error _ => none) = some v) : ∃ i, v = .int i ∧ IntRange i := by
  split at h
  next n hn =>
    cases h
    refine ⟨_, rfl, ?_⟩
    have hlt := Numeral.upTo_lt _ _ (by unfold Word.half; omega) _ _ hn
    unfold IntRange Word.half Word.size at *
    generalize (Numeral.sign cs).1 = neg at hlt ⊢
    cases neg <;> simp only [Bool.false_eq_true, if_true, if_false] at hlt ⊢ <;> omega
  next => cases h

theorem markedInteger?_int (s : String) (v : Value) (h : markedInteger? s = some v) :
    ∃ i, v = .int i ∧ IntRange i := by
  unfold markedInteger? at h
  simp only at h
  split at h
  · exact spelledInteger_eq 2 _ v h
  · exact spelledInteger_eq 8 _ v h
  · cases h

end Yaml

namespace Number

def Settled (n : Number) : Prop := ofText? n.text = some n

theorem trim_eq (s : String) (h : ∀ c ∈ s.toList, Text.isBlank c = false) : Text.trim s = s := by
  have hl : Text.trimLeft s.toList = s.toList := by
    rw [Text.trimLeft, List.dropWhile_eq_self_iff]
    intro hpos
    simp [h _ (List.getElem_mem hpos)]
  have hr : Text.trimRight s.toList = s.toList := by
    rw [Text.trimRight, (List.dropWhile_eq_self_iff).mpr, List.reverse_reverse]
    intro hpos
    rw [h _ (List.mem_reverse.mp (List.getElem_mem hpos))]
    decide
  rw [Text.trim, hl, hr, String.ofList_toList]

theorem isBlank_digit (c : Char) (h : c.isDigit = true) : Text.isBlank c = false := by
  obtain ⟨h1, h2⟩ : 48 ≤ c.toNat ∧ c.toNat ≤ 57 := Char.isDigit_iff_toNat.mp h
  simp only [Text.isBlank, Bool.or_eq_false_iff, Bool.and_eq_false_iff, decide_eq_false_iff_not,
    beq_eq_false_iff_ne]
  omega

theorem trim_signed (s : String) (neg : Bool) (p : Numeral.Spelling) (hp : p.Valid)
    (hs : s.toList = Numeral.signed neg p) : Text.trim s = s := by
  refine trim_eq s fun c hc => ?_
  rw [hs, Numeral.signed, List.mem_append] at hc
  rcases hc with hc | hc
  · cases neg with
    | true =>
      obtain rfl : c = '-' := by simpa using hc
      decide
    | false => simp at hc
  · rcases p.mem_chars hp c hc with h | h
    · exact isBlank_digit c h
    · have hmarks : ['.', 'e', '-', '+'].any Text.isBlank = false := by decide
      simpa using List.any_eq_false.mp hmarks c h

theorem ofText?_toString (v : ℤ) : ofText? (toString v) = some (.int v) := by
  obtain ⟨neg, p, hp, hs⟩ := Yaml.toString_signed v
  unfold ofText?
  simp only [trim_signed _ neg p hp hs, Numeral.integer?_toString]

theorem lowerLetter_digit (c : Char) (h : c.isDigit = true) : Text.lowerLetter c = c := by
  have : 48 ≤ c.toNat ∧ c.toNat ≤ 57 := Char.isDigit_iff_toNat.mp h
  simp only [Text.lowerLetter]
  rw [if_pos (by omega), Numeral.toLower_of_isDigit c h]

theorem ofText?_signed (s : String) (neg : Bool) (p : Numeral.Spelling) (hp : p.Valid)
    (hs : s.toList = Numeral.signed neg p) (x : Double) (hx : Numeral.double s.toList = .ok x) :
    (∃ v, ofText? s = some (.int v)) ∨ ofText? s = some (.float x) := by
  obtain ⟨c, cs, hc, hd⟩ := p.chars_cons hp
  have hword : (Text.lowerText s).toList
      = (if neg then ['-'] else []) ++ c :: cs.map Text.lowerLetter := by
    rw [Text.lowerText, String.toList_ofList, hs, Numeral.signed, hc, List.map_append,
      List.map_cons, lowerLetter_digit c hd]
    cases neg <;> rfl
  have hne : ∀ w ∈ [".inf", "+.inf", "inf", "+inf", "-.inf", "-inf"], Text.lowerText s ≠ w := by
    intro w hw h
    have hdigit : ∀ w ∈ [".inf", "+.inf", "inf", "+inf", "-.inf", "-inf"],
        (w.toList.dropWhile (· == '-')).head?.any Char.isDigit = false := by decide
    have hm : c ≠ '-' := by
      rintro rfl
      simp at hd
    have hh : (w.toList.dropWhile (· == '-')).head? = some c := by
      rw [← h, hword]
      cases neg <;> simp [hm]
    have := hdigit w hw
    rw [hh, Option.any_some, hd] at this
    cases this
  have h1 : Text.lowerText s ∉ [".inf", "+.inf", "inf", "+inf"] := fun h =>
    hne _ (List.mem_append_left ["-.inf", "-inf"] h) rfl
  have h2 : Text.lowerText s ∉ ["-.inf", "-inf"] := fun h =>
    hne _ (List.mem_append_right [".inf", "+.inf", "inf", "+inf"] h) rfl
  unfold ofText?
  simp only [trim_signed s neg p hp hs]
  cases hi : Numeral.integer? s.toList with
  | some v => exact .inl ⟨v, rfl⟩
  | none =>
    right
    simp only [h1, h2, if_false]
    rw [hs, Numeral.filter_signed neg p hp, ← hs, hx]

/-- What is read from the text of a number is settled: a float may become the integer its text
spells, and then it stays one. -/
theorem settled_ofText? (n m : Number) (h : ofText? n.text = some m) : m.Settled := by
  cases n with
  | int v =>
    rw [text, ofText?_toString] at h
    cases h
    exact ofText?_toString v
  | float x =>
    have hsame : m = .float x → m.Settled := by
      rintro rfl
      exact h
    have hint : (∃ v, m = .int v) → m.Settled := by
      rintro ⟨v, rfl⟩
      exact ofText?_toString v
    by_cases hnan : x.isNaN = true
    · rw [text, if_pos hnan] at h
      have : ofText? ".nan" = none := by decide +kernel
      rw [this] at h
      cases h
    · by_cases hinf : x.isInfinite = true
      · apply hsame
        have hx := Double.eq_infinity x hinf
        rw [text, if_neg hnan, if_pos hinf] at h
        have hpos : ofText? ".inf" = some (.float (Double.infinity false)) := by decide +kernel
        have hneg : ofText? "-.inf" = some (.float (Double.infinity true)) := by decide +kernel
        cases hb : x.negative with
        | true =>
          rw [hb, if_pos rfl, hneg] at h
          rw [hx, hb]
          exact (Option.some.inj h).symm
        | false =>
          rw [hb, if_neg (by decide), hpos] at h
          rw [hx, hb]
          exact (Option.some.inj h).symm
      · have hf := Double.isFinite_of x hnan hinf
        have hl : FloatLayout.general.least ≤ 0 ∧ 0 < FloatLayout.general.bound := by decide
        obtain ⟨p, hp, hs, -⟩ := Double.render_chars FloatLayout.general hl x hf
        have ht : text (.float x) = x.render .general := by simp [text, hnan, hinf]
        rcases ofText?_signed _ x.negative p hp hs x (Double.double_render _ hl x hf) with
          ⟨v, hv⟩ | hv
        · rw [ht, hv] at h
          exact hint ⟨v, (Option.some.inj h).symm⟩
        · rw [ht, hv] at h
          exact hsame (Option.some.inj h).symm

end Number

end FormatFuzz
