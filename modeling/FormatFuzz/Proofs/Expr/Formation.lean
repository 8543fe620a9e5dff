import FormatFuzz.Proofs.Double.Spelling
import FormatFuzz.Proofs.Expr.Parsing
import FormatFuzz.Proofs.Expr.RoundTrip

/-!
# Trees of accepted texts

The scanner hands on words made of name characters and numerals that begin with a digit. So the
names of an accepted tree are identifiers, its doubles are finite and carry no sign of their own, and
a minus before an integer has become part of the integer.
-/

set_option autoImplicit false

namespace FormatFuzz

namespace Numeral

def Unsigned (x : Double) : Prop :=
  x.isFinite = true ∧ x.negative = false

theorem unsigned_ofMagnitude (m : ℕ) (h : m < Double.infiniteMagnitude) :
    Unsigned (Double.ofMagnitude false m) := by
  have hs : m < 2047 * 0x10000000000000 := h
  have hb : (Double.ofMagnitude false m).bits.toNat = m := by
    simp only [Double.ofMagnitude, Bool.false_eq_true, if_false, UInt64.toNat_ofNat']
    omega
  constructor
  · simp only [Double.isFinite, Double.exponentField, Double.fractionSpan, hb, bne_iff_ne, ne_eq]
    omega
  · simp only [Double.negative, hb, Word.half, decide_eq_false_iff_not]
    omega

theorem unsigned_ofRatio? (num den : ℕ) (x : Double) (h : Double.ofRatio? false num den = some x) :
    Unsigned x := by
  unfold Double.ofRatio? at h
  simp only at h
  split at h
  next hm =>
    cases h
    exact unsigned_ofMagnitude _ hm
  next => cases h

theorem unsigned_ofDecimal (v : ℕ) (e : ℤ) (x : Double) (h : ofDecimal false v e = .ok x) :
    Unsigned x := by
  have hzero : Unsigned (Double.ofMagnitude false 0) := unsigned_ofMagnitude 0 (by decide)
  unfold ofDecimal at h
  simp only at h
  repeat' split at h
  all_goals cases h
  next => exact hzero
  next => exact hzero
  next hr => exact unsigned_ofRatio? _ _ _ hr

theorem unsigned_ofBinary (v : ℕ) (e : ℤ) (x : Double) (h : ofBinary false v e = .ok x) :
    Unsigned x := by
  have hzero : Unsigned (Double.ofMagnitude false 0) := unsigned_ofMagnitude 0 (by decide)
  unfold ofBinary at h
  simp only at h
  repeat' split at h
  all_goals cases h
  next => exact hzero
  next => exact hzero
  next hr => exact unsigned_ofRatio? _ _ _ hr

theorem unsigned_decimal (cs : List Char) (x : Double) (h : double.decimal false cs = .ok x) :
    Unsigned x := by
  unfold double.decimal at h
  simp only at h
  repeat' split at h
  all_goals first
    | exact unsigned_ofDecimal _ _ x h
    | cases h

theorem unsigned_double (c : Char) (cs : List Char) (hc : c.isDigit = true) (x : Double)
    (h : double (c :: cs) = .ok x) : Unsigned x := by
  have hspecial : special? (c :: cs) = none := special?_digit false c cs hc
  have hsign : sign (c :: cs) = (false, c :: cs) := sign_digit false c cs hc
  unfold double at h
  rw [hspecial, hsign] at h
  simp only at h
  repeat' split at h
  all_goals first
    | exact unsigned_ofBinary _ _ x h
    | exact unsigned_decimal _ x h
    | cases h

end Numeral

def Lexeme.Scanned : Lexeme → Prop
  | .word w => ∃ b bs, w = b :: bs ∧ Token.isWordStart b = true ∧
      ∀ c ∈ bs, Token.isWordPart c = true
  | .float t => ∃ b bs, t = b :: bs ∧ Token.isDigit b = true
  | _ => True

namespace Token

theorem numberLength_float (b : UInt8) (rest : List UInt8) (n : ℕ) (hb : isDigit b = true)
    (h : numberLength (b :: rest) = (true, n)) : 0 < n := by
  have hd : numberLength (b :: rest) = decimalLength (b :: rest) := by
    cases rest with
    | nil => rfl
    | cons m ms =>
      rw [numberLength] at h ⊢
      split
      next hm => simp [hm] at h
      next => rfl
  have hn : isNumberPart b = true := by simp [isNumberPart, hb]
  rw [hd, decimalLength, Prod.mk.injEq] at h
  rw [← h.2, List.takeWhile_cons_of_pos hn, List.length_cons]
  omega

theorem scanned_munch (b : UInt8) (rest : List UInt8) (l : Lexeme) (n : ℕ)
    (h : munch b rest = .ok (l, n)) : l.Scanned := by
  unfold munch at h
  split at h
  next hb =>
    simp only [Except.ok.injEq, Prod.mk.injEq] at h
    obtain ⟨rfl, -⟩ := h
    cases hl : numberLength (b :: rest) with
    | mk float n =>
      cases float with
      | false => trivial
      | true =>
        obtain ⟨k, rfl⟩ := Nat.exists_eq_succ_of_ne_zero (numberLength_float b rest n hb hl).ne'
        exact ⟨b, rest.take k, rfl, hb⟩
  next =>
    split at h
    next hb =>
      cases h
      exact ⟨b, _, rfl, hb, fun c hc => List.mem_takeWhile_imp hc⟩
    next =>
      repeat' split at h
      all_goals
        cases h
        try trivial

theorem scanned_scanFrom (bs : List UInt8) (pos skip : ℕ) (ts : List Token)
    (h : scanFrom pos skip bs = .ok ts) : ∀ t ∈ ts, t.lexeme.Scanned := by
  induction bs generalizing pos skip ts with
  | nil =>
    rw [scanFrom] at h
    cases h
    simp
  | cons b bs ih =>
    cases skip with
    | succ skip => exact ih _ _ _ h
    | zero =>
      rw [scanFrom] at h
      split at h
      next => exact ih _ _ _ h
      next =>
        split at h
        next => cases h
        next l n hl =>
          cases hs : scanFrom (pos + 1) (n - 1) bs with
          | error e =>
            rw [hs] at h
            cases h
          | ok us =>
            rw [hs] at h
            cases h
            rintro t (_ | ⟨_, ht⟩)
            · exact scanned_munch b bs l n hl
            · exact ih _ _ _ hs t ht

theorem ofByte_class (b : UInt8) :
    (isWordStart b = true → isNameStart (Char.ofNat b.toNat) = true) ∧
      (isWordPart b = true → isNamePart (Char.ofNat b.toNat) = true) ∧
      (isDigit b = true → (Char.ofNat b.toNat).isDigit = true) := by
  have all : ∀ n < 256,
      (isWordStart (UInt8.ofNat n) = true → isNameStart (Char.ofNat n) = true) ∧
        (isWordPart (UInt8.ofNat n) = true → isNamePart (Char.ofNat n) = true) ∧
        (isDigit (UInt8.ofNat n) = true → (Char.ofNat n).isDigit = true) := by
    decide +kernel
  simpa using all b.toNat b.toNat_lt

theorem isIdentifier_ofAscii (w : List UInt8) (h : (Lexeme.word w).Scanned) :
    isIdentifier (Text.ofAscii w) = true := by
  obtain ⟨b, bs, rfl, hb, hbs⟩ := h
  rw [isIdentifier, Text.ofAscii, String.toList_ofList, List.map_cons]
  simp only [Bool.and_eq_true, List.all_map, List.all_eq_true]
  exact ⟨(ofByte_class b).1 hb, fun c hc => (ofByte_class c).2.1 (hbs c hc)⟩

theorem ofAscii_float (t : List UInt8) (h : (Lexeme.float t).Scanned) :
    ∃ c cs, (Text.ofAscii t).toList.filter (· != '_') = c :: cs ∧ c.isDigit = true := by
  obtain ⟨b, bs, rfl, hb⟩ := h
  have hc := (ofByte_class b).2.2 hb
  have hu : Char.ofNat b.toNat ≠ '_' := by
    intro he
    rw [he] at hc
    exact absurd hc (by decide)
  rw [Text.ofAscii, String.toList_ofList, List.map_cons, List.filter_cons_of_pos (by simpa using hu)]
  exact ⟨_, _, rfl, hc⟩

end Token

namespace Expr

open Token (isIdentifier)

inductive Formed : Expr → Prop
  | int (v : ℤ) : Formed (.int v)
  | float {v : Double} (h : Numeral.Unsigned v) : Formed (.float v)
  | str (s : String) : Formed (.str s)
  | bool (b : Bool) : Formed (.bool b)
  | name {id : String} (h : isIdentifier id = true) (hk : id ∉ keywords) : Formed (.name id)
  | member {w : String} {ws : List String} {id : String}
      (h : ∀ v ∈ w :: ws ++ [id], isIdentifier v = true) : Formed (.member (w :: ws) id)
  | unary {op : UnaryOp} {x : Expr} (h : Formed x) (hf : ¬ (op = .neg ∧ x.isInt = true)) :
      Formed (.unary op x)
  | binary {op : BinaryOp} {x y : Expr} (hx : Formed x) (hy : Formed y) :
      Formed (.binary op x y)
  | cond {c a b : Expr} (hc : Formed c) (ha : Formed a) (hb : Formed b) : Formed (.cond c a b)
  | attr {x : Expr} {id : String} (h : Formed x) (hi : isIdentifier id = true) :
      Formed (.attr x id)
  | index {x i : Expr} (hx : Formed x) (hi : Formed i) : Formed (.index x i)
  | list {xs : List Expr} (h : ∀ x ∈ xs, Formed x) : Formed (.list xs)

theorem Formed.elements {xs : List Expr} (h : Formed (.list xs)) : ∀ x ∈ xs, Formed x := by
  cases h with
  | list h => exact h

theorem formed_derives (p : Phrase) (ls : List Lexeme) (x : Expr) (h : Derives p ls x)
    (hl : ∀ l ∈ ls, l.Scanned) : Formed x := by
  induction h with
  | plain _ ih | single _ ih | affirmed _ ih | unsigned _ ih | bare _ ih => exact ih hl
  | cond _ _ _ ihc iha ihb =>
    exact .cond (ihc fun l h => hl l (by simp [h])) (iha fun l h => hl l (by simp [h]))
      (ihb fun l h => hl l (by simp [h]))
  | joined _ _ _ ihx ihy =>
    exact .binary (ihx fun l h => hl l (by simp [h])) (ihy fun l h => hl l (by simp [h]))
  | negated _ ih => exact .unary (ih fun l h => hl l (by simp [h])) (by simp)
  | folded => exact .int _
  | @sign _ op _ x _ _ hf ih =>
    refine .unary (ih fun l h => hl l (by simp [h])) ?_
    rintro ⟨rfl, hx⟩
    cases x with
    | int v => exact hf v ⟨rfl, rfl⟩
    | _ => cases hx
  | dotted _ w ih =>
    exact .attr (ih fun l h => hl l (by simp [h]))
      (Token.isIdentifier_ofAscii w (hl _ (by simp)))
  | indexed _ _ ihx ihi =>
    exact .index (ihx fun l h => hl l (by simp [h])) (ihi fun l h => hl l (by simp [h]))
  | int => exact .int _
  | @float t v h =>
    obtain ⟨c, cs, hcs, hc⟩ := Token.ofAscii_float t (hl _ (by simp))
    rw [hcs] at h
    exact .float (Numeral.unsigned_double c cs hc v h)
  | str => exact .str _
  | yes | no => exact .bool _
  | @name w hk => exact .name (Token.isIdentifier_ofAscii w (hl _ (by simp))) hk
  | @member w _ ws v =>
    refine .member fun s hs => ?_
    have hw : s ∈ (w :: (ws ++ [v])).map Text.ofAscii := by simpa using hs
    obtain ⟨u, hu, rfl⟩ := List.mem_map.mp hw
    refine Token.isIdentifier_ofAscii u (hl _ ?_)
    rcases List.mem_cons.mp hu with rfl | hu
    · simp
    · exact List.mem_cons_of_mem _ (List.mem_flatMap.mpr ⟨u, hu, by simp⟩)
  | group _ ih | list _ ih => exact ih fun l h => hl l (by simp [h])
  | empty => exact .list (by simp)
  | last _ ih => exact .list (by simpa using ih hl)
  | next _ _ ihx ihr =>
    refine .list (List.forall_mem_cons.mpr ⟨ihx fun l h => hl l (by simp [h]), ?_⟩)
    exact (ihr fun l h => hl l (by simp [h])).elements

theorem formed_parse (src : String) (x : Expr) (h : parse src = .ok x) : Formed x := by
  obtain ⟨ts, hts, hd⟩ := (parse_ok src x).mp h
  refine formed_derives _ _ x hd fun l hl => ?_
  obtain ⟨t, ht, rfl⟩ := List.mem_map.mp hl
  exact Token.scanned_scanFrom _ _ _ ts hts t ht

end Expr
end FormatFuzz
