import FormatFuzz.Proofs.Expr.Positions
import FormatFuzz.Proofs.Expr.Spans

/-!
# Blanks between tokens

Blanks may be put in wherever no token would be torn apart. The scanner looks at bytes behind a
lexeme to find its end, but a blank there ends every lexeme as well as what stood there before, so
the lexemes stay the same: each of the lengths that the scanner measures is `Stable`. The readers
look at lexemes alone and use positions only to tell where a fault lies, so two texts with the same
lexemes have the same tree or the same fault.
-/

set_option autoImplicit false

namespace FormatFuzz

namespace Token

/-- The second text is the first, whose first byte has the position `pos`, with blanks put in where
no token of `ts` stands on both sides. -/
inductive Inserts (ts : List Token) : Nat → List UInt8 → List UInt8 → Prop
  | nil {pos : Nat} : Inserts ts pos [] []
  | keep {pos : Nat} {bs cs : List UInt8} (b : UInt8) (h : Inserts ts (pos + 1) bs cs) :
      Inserts ts pos (b :: bs) (b :: cs)
  | blank {pos : Nat} {bs cs : List UInt8} {b : UInt8} (hb : isSpace b = true)
      (hp : ∀ t ∈ ts, ¬ (t.start < pos ∧ pos < t.stop)) (h : Inserts ts pos bs cs) :
      Inserts ts pos bs (b :: cs)

/-- A length that is not longer than `xs` does not change when blanks are put in behind `xs`. -/
def Stable (f : List UInt8 → Nat) : Prop :=
  ∀ (ts : List Token) (pos : Nat) (xs bs cs : List UInt8), Inserts ts pos bs cs →
    f (xs ++ bs) ≤ xs.length → f (xs ++ cs) = f (xs ++ bs)

def Solid (p : UInt8 → Bool) : Prop := ∀ b, isSpace b = true → p b = false

theorem solid_iff (p : UInt8 → Bool) :
    Solid p ↔ p 32 = false ∧ p 9 = false ∧ p 10 = false ∧ p 13 = false := by
  simp only [Solid, isSpace, Bool.or_eq_true, beq_iff_eq]
  constructor
  · intro h
    exact ⟨h 32 (by simp), h 9 (by simp), h 10 (by simp), h 13 (by simp)⟩
  · rintro ⟨h32, h9, h10, h13⟩ b (((rfl | rfl) | rfl) | rfl) <;> assumption

theorem head_inserts (p : UInt8 → Bool) (hp : Solid p) (ts : List Token) (pos : Nat)
    (bs cs : List UInt8) (h : Inserts ts pos bs cs) (hb : ∀ b ∈ bs.head?, p b = false) :
    ∀ c ∈ cs.head?, p c = false := by
  cases h with
  | nil => exact hb
  | keep b _ => simpa using hb
  | blank hs _ _ => simpa using hp _ hs

theorem takeWhile_length_eq_zero (p : UInt8 → Bool) (bs : List UInt8) :
    (bs.takeWhile p).length = 0 ↔ ∀ b ∈ bs.head?, p b = false := by
  cases bs with
  | nil => simp
  | cons b bs => cases hb : p b <;> simp [hb]

theorem stable_takeWhile (p : UInt8 → Bool) (hp : Solid p) :
    Stable fun bs => (bs.takeWhile p).length := by
  intro ts pos xs bs cs hi h
  dsimp only at h ⊢
  induction xs with
  | nil =>
    simp only [List.nil_append, List.length_nil, Nat.le_zero] at h ⊢
    rw [h, takeWhile_length_eq_zero]
    exact head_inserts p hp ts pos bs cs hi ((takeWhile_length_eq_zero p bs).mp h)
  | cons x xs ih =>
    simp only [List.cons_append] at h ⊢
    cases hx : p x with
    | false => simp [hx]
    | true =>
      rw [List.takeWhile_cons_of_pos hx, List.length_cons, List.length_cons,
        Nat.succ_le_succ_iff] at h
      rw [List.takeWhile_cons_of_pos hx, List.takeWhile_cons_of_pos hx, List.length_cons,
        List.length_cons, ih h]

theorem stable_add (f g : List UInt8 → Nat) (hf : Stable f) (hg : Stable g) :
    Stable fun bs => f bs + g (bs.drop (f bs)) := by
  intro ts pos xs bs cs hi h
  dsimp only at h ⊢
  have hx : f (xs ++ bs) ≤ xs.length := by omega
  rw [hf ts pos xs bs cs hi hx]
  rw [List.drop_append_of_le_length hx] at h ⊢
  rw [List.drop_append_of_le_length hx]
  rw [hg ts pos (xs.drop (f (xs ++ bs))) bs cs hi (by rw [List.length_drop]; omega)]

theorem solid_isDigit : Solid isDigit := (solid_iff _).mpr (by decide)

theorem solid_isSign : Solid isSign := (solid_iff _).mpr (by decide)

theorem solid_isExpoMark : Solid isExpoMark := (solid_iff _).mpr (by decide)

theorem stable_signLength : Stable signLength := by
  intro ts pos xs bs cs hi h
  cases xs with
  | cons x xs => rfl
  | nil =>
    have zero (ds : List UInt8) :
        signLength ds = 0 ↔ ∀ d ∈ ds.head?, isSign d = false := by
      cases ds with
      | nil => simp [signLength]
      | cons d ds => cases hd : isSign d <;> simp [signLength, hd]
    simp only [List.nil_append, List.length_nil, Nat.le_zero] at h ⊢
    rw [h, zero]
    exact head_inserts isSign solid_isSign ts pos bs cs hi ((zero bs).mp h)

theorem signLength_le (bs : List UInt8) : signLength bs ≤ 1 := by
  unfold signLength
  split
  · split <;> omega
  · omega

theorem expoDigits_inserts (ts : List Token) (pos : Nat) (bs cs : List UInt8)
    (hi : Inserts ts pos bs cs) (h : expoDigits bs = 0) : expoDigits cs = 0 := by
  have head (ps : Nat) (as ds : List UInt8) (ha : Inserts ts ps as ds)
      (hz : (as.takeWhile isDigit).length = 0) : (ds.takeWhile isDigit).length = 0 := by
    rw [takeWhile_length_eq_zero] at hz ⊢
    exact head_inserts isDigit solid_isDigit ts ps as ds ha hz
  cases hi with
  | nil => exact h
  | @blank _ _ cs b hb =>
    have hs : signLength (b :: cs) = 0 := by simp [signLength, solid_isSign b hb]
    rw [expoDigits, hs, List.drop_zero, takeWhile_length_eq_zero]
    simpa using solid_isDigit b hb
  | @keep _ bs cs b hi =>
    cases hs : isSign b with
    | true =>
      have hone (ds : List UInt8) :
          expoDigits (b :: ds) = (ds.takeWhile isDigit).length := by
        simp [expoDigits, signLength, hs]
      rw [hone] at h ⊢
      exact head _ _ _ hi h
    | false =>
      have hnone (ds : List UInt8) :
          expoDigits (b :: ds) = ((b :: ds).takeWhile isDigit).length := by
        simp [expoDigits, signLength, hs]
      rw [hnone, takeWhile_length_eq_zero] at h ⊢
      exact h

theorem stable_exponentLength : Stable exponentLength := by
  intro ts pos xs bs cs hi h
  have hdigits := stable_add signLength _ stable_signLength (stable_takeWhile _ solid_isDigit)
  cases xs with
  | nil =>
    simp only [List.nil_append, List.length_nil, Nat.le_zero] at h ⊢
    rw [h]
    cases hi with
    | nil => rfl
    | blank hb => rw [exponentLength_cons, if_neg (by simp [solid_isExpoMark _ hb])]
    | @keep _ bs cs e hi =>
      rw [exponentLength_cons] at h ⊢
      split at h
      next => omega
      next hn =>
        refine if_neg fun hc => hn ⟨hc.1, fun hz => hc.2 ?_⟩
        exact expoDigits_inserts ts _ bs cs hi hz
  | cons e xs =>
    simp only [List.cons_append, exponentLength_cons] at h ⊢
    have hsum (ys : List UInt8) : signLength ys + expoDigits ys
        = signLength ys + ((ys.drop (signLength ys)).takeWhile isDigit).length := rfl
    -- the sign and the digits keep their lengths if they lie in `xs`
    have keeps (hle : signLength (xs ++ bs) + expoDigits (xs ++ bs) ≤ xs.length) :
        signLength (xs ++ cs) = signLength (xs ++ bs) ∧
          expoDigits (xs ++ cs) = expoDigits (xs ++ bs) := by
      have hs := stable_signLength ts pos xs bs cs hi (by omega)
      have hd := hdigits ts pos xs bs cs hi hle
      dsimp only at hd
      rw [← hsum, ← hsum] at hd
      omega
    by_cases hz : expoDigits (xs ++ bs) = 0
    · have hz' : expoDigits (xs ++ cs) = 0 := by
        cases xs with
        | nil => exact expoDigits_inserts ts pos bs cs hi hz
        | cons x xs =>
          have := signLength_le (x :: xs ++ bs)
          rw [(keeps (by rw [hz, List.length_cons]; omega)).2, hz]
      rw [if_neg fun hc => hc.2 hz', if_neg fun hc => hc.2 hz]
    · by_cases he : isExpoMark e = true
      · rw [if_pos ⟨he, hz⟩, List.length_cons] at h
        obtain ⟨hs, hd⟩ := keeps (by omega)
        rw [hs, hd]
      · rw [if_neg fun hc => he hc.1, if_neg fun hc => he hc.1]

theorem fractionLength_cons (p : UInt8) (bs : List UInt8) :
    fractionLength (p :: bs)
      = if (p == 46 && bs.head?.any isDigit) = true then
          1 + (bs.takeWhile isNumberPart).length
        else 0 := by
  cases bs with
  | nil => simp [fractionLength]
  | cons d bs => simp [fractionLength]

theorem any_head?_eq_false (p : UInt8 → Bool) (bs : List UInt8) :
    bs.head?.any p = false ↔ ∀ b ∈ bs.head?, p b = false := by
  cases bs <;> simp

theorem solid_isNumberPart : Solid isNumberPart := (solid_iff _).mpr (by decide)

theorem stable_fractionLength : Stable fractionLength := by
  intro ts pos xs bs cs hi h
  have head (ps : Nat) (as ds : List UInt8) (ha : Inserts ts ps as ds)
      (hd : as.head?.any isDigit = false) : ds.head?.any isDigit = false := by
    rw [any_head?_eq_false] at hd ⊢
    exact head_inserts isDigit solid_isDigit ts ps as ds ha hd
  have short (p : UInt8) (ds : List UInt8) (hp : (p == 46) = false ∨ ds.head?.any isDigit = false) :
      fractionLength (p :: ds) = 0 := by
    rw [fractionLength_cons, if_neg]
    rcases hp with hp | hp <;> simp [hp]
  cases xs with
  | nil =>
    simp only [List.nil_append, List.length_nil, Nat.le_zero] at h ⊢
    rw [h]
    cases hi with
    | nil => rfl
    | blank hb => exact short _ _ (.inl ((solid_iff (· == 46)).mpr (by decide) _ hb))
    | @keep _ bs cs p hi =>
      rw [fractionLength_cons] at h
      split at h
      next => omega
      next hn =>
        rw [Bool.and_eq_true, not_and_or, Bool.not_eq_true, Bool.not_eq_true] at hn
        exact short p cs (hn.imp_right (head _ _ _ hi))
  | cons p xs =>
    cases xs with
    | nil =>
      simp only [List.singleton_append, List.length_singleton] at h ⊢
      have hn : (p == 46) = false ∨ bs.head?.any isDigit = false := by
        by_contra hc
        rw [not_or, Bool.not_eq_false, Bool.not_eq_false] at hc
        rw [fractionLength_cons, hc.1, hc.2, Bool.and_self, if_pos rfl] at h
        have hz := (takeWhile_length_eq_zero isNumberPart bs).mp (by omega)
        cases bs with
        | nil => cases hc.2
        | cons d bs =>
          have hdigit : isDigit d = true := hc.2
          have hpart := hz d rfl
          rw [isNumberPart, hdigit] at hpart
          cases hpart
      rw [short p bs hn, short p cs (hn.imp_right (head _ _ _ hi))]
    | cons x xs =>
      have hstable := stable_takeWhile _ solid_isNumberPart ts pos (x :: xs) bs cs hi
      have behind (ds : List UInt8) : fractionLength (p :: x :: ds)
          = if (p == 46 && isDigit x) = true then 1 + ((x :: ds).takeWhile isNumberPart).length
            else 0 := rfl
      simp only [List.cons_append, behind, List.length_cons] at h hstable ⊢
      split at h
      next hc => rw [if_pos hc, if_pos hc, hstable (by omega)]
      next hc => rw [if_neg hc, if_neg hc]

section
variable {ts : List Token} {pos : Nat} {xs bs cs : List UInt8} (hi : Inserts ts pos bs cs)
include hi

theorem decimalLength_inserts (h : (decimalLength (xs ++ bs)).2 ≤ xs.length) :
    decimalLength (xs ++ cs) = decimalLength (xs ++ bs) := by
  have hwhole := stable_takeWhile _ solid_isNumberPart
  have hfraction := stable_add _ _ hwhole stable_fractionLength
  have hexpo := stable_add _ _ hfraction stable_exponentLength
  dsimp only [decimalLength] at h
  have h₁ := hwhole ts pos xs bs cs hi (by dsimp only; omega)
  have h₂ := hfraction ts pos xs bs cs hi (by dsimp only; omega)
  have h₃ := hexpo ts pos xs bs cs hi (by dsimp only; omega)
  dsimp only at h₁ h₂ h₃
  rw [h₁] at h₂ h₃
  have hf := Nat.add_left_cancel h₂
  rw [hf] at h₃
  have he := Nat.add_left_cancel h₃
  simp only [decimalLength, h₁, hf, he]

theorem numberLength_inserts (b : UInt8) (hb : isDigit b = true)
    (h : (numberLength (b :: (xs ++ bs))).2 ≤ xs.length + 1) :
    numberLength (b :: (xs ++ cs)) = numberLength (b :: (xs ++ bs)) := by
  have hdecimal (h : (decimalLength (b :: (xs ++ bs))).2 ≤ xs.length + 1) :
      decimalLength (b :: (xs ++ cs)) = decimalLength (b :: (xs ++ bs)) := by
    rw [← List.cons_append] at h ⊢
    exact decimalLength_inserts hi (by simpa using h)
  have hmark : Solid isBaseMark := (solid_iff _).mpr (by decide)
  -- a numeral without a mark behind its first digit
  have plain (ds : List UInt8) (hd : ∀ d ∈ ds.head?, isBaseMark d = false) :
      numberLength (b :: ds) = decimalLength (b :: ds) := by
    cases ds with
    | nil => rfl
    | cons d ds => rw [numberLength, if_neg (by simp [hd d (by simp)])]
  cases xs with
  | nil =>
    simp only [List.nil_append, List.length_nil] at h hdecimal ⊢
    have hz : b = 48 → ∀ d ∈ bs.head?, isBaseMark d = false := by
      rintro rfl
      cases bs with
      | nil => simp
      | cons d ds =>
        cases hd : isBaseMark d with
        | false => simpa using hd
        | true =>
          rw [numberLength, if_pos (by simp [hd])] at h
          dsimp only at h
          omega
    by_cases h0 : b = 48
    · rw [plain bs (hz h0)] at h ⊢
      rw [plain cs (head_inserts _ hmark ts pos bs cs hi (hz h0)), hdecimal h]
    · have other (ds : List UInt8) : numberLength (b :: ds) = decimalLength (b :: ds) := by
        cases ds with
        | nil => rfl
        | cons d ds => rw [numberLength, if_neg (by simp [h0])]
      rw [other] at h ⊢
      rw [other, hdecimal h]
  | cons x xs =>
    simp only [List.cons_append] at h hdecimal ⊢
    rw [numberLength] at h ⊢
    rw [numberLength]
    split at h
    next hc =>
      have hsolid : Solid fun b => isHexDigit b || b == 95 := (solid_iff _).mpr (by decide)
      have := stable_takeWhile _ hsolid ts pos xs bs cs hi (by
        dsimp only at h ⊢
        rw [List.length_cons] at h
        omega)
      dsimp only at this
      rw [if_pos hc, if_pos hc, this]
    next hc => rw [if_neg hc, if_neg hc, hdecimal h]

theorem word_inserts (h : (xs ++ bs).takeWhile isWordPart = xs) :
    (xs ++ cs).takeWhile isWordPart = xs := by
  have hall : ∀ x ∈ xs, isWordPart x = true := by
    rw [← h]
    exact fun x hx => List.mem_takeWhile_imp hx
  have hend : (bs.takeWhile isWordPart).length = 0 := by
    rw [List.takeWhile_append_of_pos hall] at h
    simpa using h
  rw [takeWhile_length_eq_zero] at hend
  exact takeWhile_front _ xs cs hall
    (head_inserts _ ((solid_iff _).mpr (by decide)) ts pos bs cs hi hend)

/-- A symbol begins a text with blanks put in if and only if it began the text, unless it takes two
bytes that the text had side by side. -/
theorem symbol_inserts (b : UInt8) (s : Symbol) (hs : s.bytes = b :: xs)
    (h : (Symbol.all.find? fun t => t.bytes.isPrefixOf (b :: (xs ++ bs))) = some s) :
    (Symbol.all.find? fun t => t.bytes.isPrefixOf (b :: (xs ++ cs))) = some s := by
  cases hi with
  | nil => exact h
  | @blank _ _ cs c hc =>
    have hsolid : Solid fun c => decide (c ∈ seconds) := (solid_iff _).mpr (by decide)
    have hfront : ∀ d ∈ (c :: cs).head?, d ∉ seconds := by simpa using hsolid c hc
    have hf : (Symbol.all.find? fun t => t.bytes.isPrefixOf (s.bytes ++ c :: cs)) = some s := by
      simp only [isPrefixOf_symbol s _ (c :: cs) hfront]
      cases s <;> decide
    rwa [hs] at hf
  | @keep _ bs cs c hi =>
    have hsame (t : Symbol) : t.bytes.isPrefixOf (b :: (xs ++ c :: cs))
        = t.bytes.isPrefixOf (b :: (xs ++ c :: bs)) := by
      rcases symbol_bytes t with ⟨x, ht⟩ | ⟨x, y, ht, -⟩ <;>
        cases xs <;> simp [ht, List.isPrefixOf]
    simpa only [hsame] using h

theorem munch_inserts (b : UInt8) (l : Lexeme)
    (h : munch b (xs ++ bs) = .ok (l, xs.length + 1)) :
    munch b (xs ++ cs) = .ok (l, xs.length + 1) := by
  unfold munch at h ⊢
  split at h
  next hd =>
    rw [if_pos hd]
    have hn : (numberLength (b :: (xs ++ bs))).2 = xs.length + 1 := by
      exact (Prod.mk.inj (Except.ok.inj h)).2
    rw [numberLength_inserts hi b hd hn.le]
    dsimp only at h ⊢
    rw [hn] at h ⊢
    simpa using h
  next hd =>
    rw [if_neg hd]
    split at h
    next hw =>
      rw [if_pos hw]
      obtain ⟨rfl, hlen⟩ := Prod.mk.inj (Except.ok.inj h)
      have hfront : (xs ++ bs).takeWhile isWordPart = xs := by
        have hp := List.takeWhile_prefix isWordPart (l := xs ++ bs)
        rw [List.length_cons, Nat.succ_inj] at hlen
        rw [List.prefix_iff_eq_take.mp hp, hlen, List.take_left]
      rw [hfront, word_inserts hi hfront]
      rfl
    next hw =>
      rw [if_neg hw]
      split at h
      next hq =>
        rw [if_pos hq]
        split at h
        next v n hv =>
          obtain ⟨rfl, hn⟩ := Prod.mk.inj (Except.ok.inj h)
          obtain ⟨body, tail, happ, rfl, hr⟩ := stringBody_resolves b _ v n hv
          have hwhole : xs ++ bs = (body ++ [b]) ++ tail := by simpa using happ
          have hxs : xs = body ++ [b] := List.append_inj_left hwhole (by simpa using hn.symm)
          rw [hxs, List.append_assoc, List.singleton_append, stringBody_of_resolves b body v cs hr]
          simp
        next => cases h
      next hq =>
        rw [if_neg hq]
        split at h
        next s hs =>
          obtain ⟨rfl, hlen⟩ := Prod.mk.inj (Except.ok.inj h)
          have hp : s.bytes <+: b :: (xs ++ bs) := List.isPrefixOf_iff_prefix.mp
            (List.find?_some (p := fun s : Symbol => s.bytes.isPrefixOf (b :: (xs ++ bs))) hs)
          have hbytes : s.bytes = b :: xs := by
            rw [List.prefix_iff_eq_take.mp hp, hlen, List.take_succ_cons, List.take_left]
          rw [symbol_inserts hi b s hbytes hs, ← hlen]
        next => cases h

end

def Lexes (bs : List UInt8) (ls : List Lexeme) : Prop :=
  ∀ pos, ∃ ts, Scans pos bs ts ∧ ts.map lexeme = ls

theorem lexes_gap (gap bs : List UInt8) (ls : List Lexeme) (hg : Blank gap) (h : Lexes bs ls) :
    Lexes (gap ++ bs) ls := by
  induction gap with
  | nil => exact h
  | cons b gap ih =>
    intro pos
    obtain ⟨hb, hg⟩ := List.forall_mem_cons.mp hg
    obtain ⟨ts, hs, hl⟩ := ih hg (pos + 1)
    exact ⟨ts, .blank hb hs, hl⟩

theorem inserts_nil (ts : List Token) (pos : Nat) (cs : List UInt8) (h : Inserts ts pos [] cs) :
    Blank cs := by
  generalize hbs : ([] : List UInt8) = bs at h
  induction h with
  | nil => simp [Blank]
  | keep => cases hbs
  | blank hb _ _ ih => exact List.forall_mem_cons.mpr ⟨hb, ih hbs⟩

theorem inserts_cons (ts : List Token) (pos : Nat) (b : UInt8) (bs cs : List UInt8)
    (h : Inserts ts pos (b :: bs) cs) :
    ∃ gap rest, cs = gap ++ b :: rest ∧ Blank gap ∧ Inserts ts (pos + 1) bs rest := by
  generalize hbs : b :: bs = as at h
  induction h with
  | nil => cases hbs
  | @keep pos as cs c h =>
    cases hbs
    exact ⟨[], cs, rfl, by simp [Blank], h⟩
  | @blank pos as cs c hc _ _ ih =>
    obtain ⟨gap, rest, rfl, hg, hr⟩ := ih hbs
    exact ⟨c :: gap, rest, rfl, List.forall_mem_cons.mpr ⟨hc, hg⟩, hr⟩

theorem inserts_inside (ts : List Token) (t : Token) (ht : t ∈ ts) (pos : Nat)
    (body tail cs : List UInt8) (hstart : t.start < pos) (hstop : pos + body.length ≤ t.stop)
    (h : Inserts ts pos (body ++ tail) cs) :
    ∃ rest, cs = body ++ rest ∧ Inserts ts (pos + body.length) tail rest := by
  induction body generalizing pos cs with
  | nil => exact ⟨cs, rfl, h⟩
  | cons b body ih =>
    rw [List.length_cons] at hstop
    cases h with
    | blank _ hp _ => exact absurd ⟨hstart, by omega⟩ (hp t ht)
    | @keep _ _ cs _ h =>
      obtain ⟨rest, rfl, hr⟩ := ih (pos + 1) cs (by omega) (by omega) h
      refine ⟨rest, rfl, ?_⟩
      rwa [List.length_cons, Nat.add_comm body.length, ← Nat.add_assoc]

/-- Along a scan of the text, what was put in is met as blanks in front of a blank, of a lexeme, or
of the end. -/
theorem lexes_inserts (ts : List Token) (pos : Nat) (bs : List UInt8) (us : List Token)
    (h : Scans pos bs us) (hu : us ⊆ ts) (cs : List UInt8) (hi : Inserts ts pos bs cs) :
    Lexes cs (us.map lexeme) := by
  induction h generalizing cs with
  | @nil pos =>
    have hgap := lexes_gap cs [] [] (inserts_nil ts pos cs hi) fun _ => ⟨[], .nil, rfl⟩
    rwa [List.append_nil] at hgap
  | @blank pos b rest us hb _ ih =>
    obtain ⟨gap, rest', rfl, hg, hr⟩ := inserts_cons ts pos b rest cs hi
    refine lexes_gap gap _ _ hg fun p => ?_
    obtain ⟨vs, hs, hl⟩ := ih hu rest' hr (p + 1)
    exact ⟨vs, .blank hb hs, hl⟩
  | @token pos b body tail l us hb hl _ ih =>
    obtain ⟨ht, hu⟩ := List.cons_subset.mp hu
    obtain ⟨gap, rest, rfl, hg, hr⟩ := inserts_cons ts pos b _ cs hi
    have hlen : pos + 1 + body.length = pos + (body.length + 1) := by omega
    obtain ⟨tail', rfl, hi'⟩ := inserts_inside ts _ ht (pos + 1) body tail rest
      (Nat.lt_succ_self pos) hlen.le hr
    rw [hlen] at hi'
    refine lexes_gap gap _ _ hg fun p => ?_
    obtain ⟨vs, hs, hvs⟩ := ih hu tail' hi' (p + (body.length + 1))
    exact ⟨_, .token hb (munch_inserts hi' b l hl) hs, by simp [hvs]⟩

/-- Blanks between tokens change neither the lexemes of a text nor its tree, nor what is wrong with
it where it has none. -/
theorem blanks_between_tokens (bs cs : List UInt8) (ts : List Token) (h : scan bs = .ok ts)
    (hi : Inserts ts 0 bs cs) :
    (∃ us, scan cs = .ok us ∧ us.map lexeme = ts.map lexeme) ∧
      (Expr.ofBytes cs).mapError Prod.snd = (Expr.ofBytes bs).mapError Prod.snd ∧
      ∀ src src' : String, Text.utf8 src = bs → Text.utf8 src' = cs →
        (Expr.parse src').mapError Expr.Malformed.fault
          = (Expr.parse src).mapError Expr.Malformed.fault := by
  obtain ⟨us, hs, hl⟩ :=
    lexes_inserts ts 0 bs ts ((scan_eq_ok bs ts).mp h) (List.Subset.refl ts) cs hi 0
  have hcs := (scan_eq_ok cs us).mpr hs
  have hbytes : (Expr.ofBytes cs).mapError Prod.snd = (Expr.ofBytes bs).mapError Prod.snd := by
    rw [Expr.ofBytes, Expr.ofBytes, h, hcs]
    exact Expr.ofTokens_lexemes bs.length cs.length ts us hl
  refine ⟨⟨us, hcs, hl⟩, hbytes, ?_⟩
  rintro src src' rfl rfl
  have hparse (src : String) : (Expr.parse src).mapError Expr.Malformed.fault
      = (Expr.ofBytes (Text.utf8 src)).mapError Prod.snd := by
    unfold Expr.parse
    rcases Expr.ofBytes (Text.utf8 src) with e | x <;> rfl
  rw [hparse, hparse, hbytes]

theorem blanks_between_tokens_comparison :
    (∃ us, scan (Text.utf8 " a >=\n1") = .ok us ∧
        us.map lexeme = [.word (Text.utf8 "a"), .symbol .ge, .int (Text.utf8 "1")]) ∧
      (Expr.ofBytes (Text.utf8 " a >=\n1")).mapError Prod.snd
        = (Expr.ofBytes (Text.utf8 "a>=1")).mapError Prod.snd := by
  let ts : List Token :=
    [⟨.word [97], 0, 1⟩, ⟨.symbol .ge, 1, 3⟩, ⟨.int [49], 3, 4⟩]
  have hscan : scan (Text.utf8 "a>=1") = .ok ts := by decide +kernel
  have hi : Inserts ts 0 [97, 62, 61, 49] [32, 97, 32, 62, 61, 10, 49] :=
    .blank (by decide) (by decide) (.keep 97 (.blank (by decide) (by decide)
      (.keep 62 (.keep 61 (.blank (by decide) (by decide) (.keep 49 .nil))))))
  have h := blanks_between_tokens _ (Text.utf8 " a >=\n1") ts hscan (by
    convert hi using 1 <;> decide +kernel)
  exact ⟨h.1, h.2.1⟩

end Token
end FormatFuzz
