import FormatFuzz.Expr.Basic
import FormatFuzz.Expr.Token
import Mathlib.Data.List.Basic
import Mathlib.Data.List.TakeWhile

/-!
# Cutting a text into lexemes

`Cuts bs ls rest` says that in front of `rest` the bytes `bs` are scanned as the lexemes `ls`. It
depends on what follows, since the scanner takes the longest lexeme it can: a word ends before a
byte that is no part of one, a numeral before a byte that cannot go on with it, a symbol before a
byte that ends no longer symbol.
-/

set_option autoImplicit false

namespace FormatFuzz

namespace Text

theorem utf8_append (s t : String) : utf8 (s ++ t) = utf8 s ++ utf8 t := by
  simp [utf8]

theorem ofUtf8_utf8 (s : String) : ofUtf8 (utf8 s) = s := by
  have h : (utf8 s).toByteArray = s.toList.utf8Encode := rfl
  rw [ofUtf8, h, List.utf8Decode?_utf8Encode]
  simp

theorem utf8EncodeChar_ascii (c : Char) (h : c.toNat < 128) :
    String.utf8EncodeChar c = [UInt8.ofNat c.toNat] := by
  have hc : c.val.toNat ≤ 127 := Nat.le_of_lt_succ h
  rw [String.utf8EncodeChar, if_pos hc]
  rfl

theorem chars_eq (s : String) : chars s = s.toList := by
  rw [chars]
  split
  next h =>
    have hoctet : ∀ b ∈ s.toByteArray.data.toList,
        String.utf8EncodeChar (Char.ofNat b.toNat) = [b] := by
      intro b hb
      have hlt : b.toNat < 128 := of_decide_eq_true (List.all_eq_true.mp h b hb)
      have hnat : (Char.ofNat b.toNat).toNat = b.toNat := by
        rw [Char.ofNat, dif_pos (.inl (by omega))]
        rfl
      rw [utf8EncodeChar_ascii _ (by omega), hnat, UInt8.ofNat_toNat]
    have hencode : (s.toByteArray.data.toList.map fun b => Char.ofNat b.toNat).utf8Encode
        = s.toByteArray := by
      apply ByteArray.ext
      rw [List.utf8Encode, List.flatMap_map, List.flatMap_congr hoctet]
      simp
    rw [← String.toByteArray_ofList, String.toByteArray_inj] at hencode
    rw [← hencode, String.toList_ofList]
    simp [hencode]
  next => rfl

end Text

namespace Token

def Cuts (bs : List UInt8) (ls : List Lexeme) (rest : List UInt8) : Prop :=
  ∀ (pos : Nat) (ts : List Token), scanFrom (pos + bs.length) 0 rest = .ok ts →
    ∃ us : List Token, scanFrom pos 0 (bs ++ rest) = .ok (us ++ ts) ∧ us.map lexeme = ls

theorem scanFrom_skip (bs rest : List UInt8) (pos : Nat) :
    scanFrom pos bs.length (bs ++ rest) = scanFrom (pos + bs.length) 0 rest := by
  induction bs generalizing pos with
  | nil => rfl
  | cons b bs ih =>
    simp only [List.length_cons, List.cons_append, scanFrom]
    rw [ih, Nat.add_right_comm, Nat.add_assoc]

theorem cuts_nil (rest : List UInt8) : Cuts [] [] rest :=
  fun _ _ h => ⟨[], h, rfl⟩

theorem cuts_append (as bs rest : List UInt8) (ks ls : List Lexeme)
    (ha : Cuts as ks (bs ++ rest)) (hb : Cuts bs ls rest) : Cuts (as ++ bs) (ks ++ ls) rest := by
  intro pos ts h
  rw [List.length_append, ← Nat.add_assoc] at h
  obtain ⟨us, hu, rfl⟩ := hb (pos + as.length) ts h
  obtain ⟨vs, hv, rfl⟩ := ha pos (us ++ ts) hu
  refine ⟨vs ++ us, ?_, List.map_append⟩
  rw [List.append_assoc, List.append_assoc, hv]

theorem cuts_space (rest : List UInt8) : Cuts [32] [] rest := by
  intro pos ts h
  exact ⟨[], by simpa [scanFrom, isSpace] using h, rfl⟩

theorem cuts_munch (b : UInt8) (bs rest : List UInt8) (l : Lexeme) (hb : isSpace b = false)
    (h : munch b (bs ++ rest) = .ok (l, bs.length + 1)) : Cuts (b :: bs) [l] rest := by
  intro pos ts hts
  refine ⟨[⟨l, pos, pos + (bs.length + 1)⟩], ?_, rfl⟩
  rw [List.length_cons, Nat.add_comm bs.length 1, ← Nat.add_assoc] at hts
  rw [List.cons_append, scanFrom, if_neg (by simp [hb]), h]
  simp only [Nat.add_sub_cancel, scanFrom_skip, hts]
  rfl

theorem isSpace_iff (b : UInt8) :
    isSpace b = true ↔ b.toNat = 32 ∨ b.toNat = 9 ∨ b.toNat = 10 ∨ b.toNat = 13 := by
  simp [isSpace, ← UInt8.toNat_inj, or_assoc]

theorem isDigit_iff (b : UInt8) : isDigit b = true ↔ 48 ≤ b.toNat ∧ b.toNat ≤ 57 := by
  simp [isDigit, UInt8.le_iff_toNat_le]

theorem isWordStart_iff (b : UInt8) :
    isWordStart b = true ↔
      b.toNat = 95 ∨ (97 ≤ b.toNat ∧ b.toNat ≤ 122) ∨ 65 ≤ b.toNat ∧ b.toNat ≤ 90 := by
  simp [isWordStart, UInt8.le_iff_toNat_le, ← UInt8.toNat_inj, or_assoc]

theorem takeWhile_front {α : Type} (p : α → Bool) (xs rest : List α) (hx : ∀ x ∈ xs, p x = true)
    (hr : ∀ y ∈ rest.head?, p y = false) : (xs ++ rest).takeWhile p = xs := by
  rw [List.takeWhile_append_of_pos hx]
  cases rest with
  | nil => simp
  | cons y ys => simp [hr y (by simp)]

theorem cuts_word (b : UInt8) (bs rest : List UInt8) (hb : isWordStart b = true)
    (hbs : ∀ c ∈ bs, isWordPart c = true) (hr : ∀ c ∈ rest.head?, isWordPart c = false) :
    Cuts (b :: bs) [.word (b :: bs)] rest := by
  have hs : isSpace b = false := by
    rw [Bool.eq_false_iff, ne_eq, isSpace_iff]
    rw [isWordStart_iff] at hb
    omega
  have hd : ¬ isDigit b = true := by
    rw [isDigit_iff]
    rw [isWordStart_iff] at hb
    omega
  apply cuts_munch b bs rest _ hs
  rw [munch, if_neg hd, if_pos hb, takeWhile_front _ bs rest hbs hr]
  rfl

/-- What ends a word and a numeral: nothing more, a blank, a bracket or comma, or a point before a
name. -/
inductive Breaks : List UInt8 → Prop
  | nil : Breaks []
  | byte (b : UInt8) (bs : List UInt8) (h : b ∈ [32, 41, 44, 91, 93]) : Breaks (b :: bs)
  | point (c : UInt8) (bs : List UInt8) (h : isWordStart c = true) : Breaks (46 :: c :: bs)

def breakBytes : List UInt8 := [32, 41, 44, 46, 91, 93]

theorem breaks_head (p : UInt8 → Bool) (hp : breakBytes.any p = false) (rest : List UInt8)
    (h : Breaks rest) : ∀ c ∈ rest.head?, p c = false := by
  have hbreak : ∀ c ∈ breakBytes, p c = false := by simpa using hp
  intro c hc
  cases h with
  | nil => simp at hc
  | byte b bs hb =>
    obtain rfl : b = c := by simpa using hc
    refine hbreak b ?_
    revert b
    simp [breakBytes]
  | point d bs hd =>
    obtain rfl : 46 = c := by simpa using hc
    exact hbreak 46 (by decide)

def seconds : List UInt8 := [38, 58, 60, 61, 62, 124]

theorem decimalLength_digits (ds rest : List UInt8) (hd : ∀ d ∈ ds, isDigit d = true)
    (hr : Breaks rest) : decimalLength (ds ++ rest) = (false, ds.length) := by
  have hn : ∀ d ∈ ds, isNumberPart d = true := fun d h => by simp [isNumberPart, hd d h]
  have hb : ∀ c ∈ rest.head?, isNumberPart c = false := breaks_head _ (by decide) rest hr
  have hf : fractionLength rest = 0 := by
    cases hr with
    | nil => rfl
    | byte b bs h =>
      cases bs with
      | nil => rfl
      | cons c cs =>
        have : b ≠ 46 := by
          rintro rfl
          revert h
          decide
        simp [fractionLength, this]
    | point c bs h =>
      have : ¬ isDigit c = true := by
        rw [isDigit_iff]
        rw [isWordStart_iff] at h
        omega
      simp [fractionLength, this]
  have he : exponentLength rest = 0 := by
    cases rest with
    | nil => rfl
    | cons c cs =>
      have : (c == 101 || c == 69) = false :=
        breaks_head (fun c => c == 101 || c == 69) (by decide) _ hr c (by simp)
      simp only [exponentLength, this]
      rfl
  rw [decimalLength, takeWhile_front _ ds rest hn hb]
  simp [hf, he]

theorem cuts_digits (d : UInt8) (ds rest : List UInt8) (hd : ∀ c ∈ d :: ds, isDigit c = true)
    (hr : Breaks rest) : Cuts (d :: ds) [.int (d :: ds)] rest := by
  have h0 := hd d (by simp)
  have hs : isSpace d = false := by
    rw [Bool.eq_false_iff, ne_eq, isSpace_iff]
    rw [isDigit_iff] at h0
    omega
  have hl : numberLength (d :: (ds ++ rest)) = decimalLength (d :: (ds ++ rest)) := by
    have hm : ∀ c ∈ (ds ++ rest).head?, isBaseMark c = false := by
      cases ds with
      | nil => exact breaks_head _ (by decide) rest hr
      | cons e es =>
        intro c hc
        obtain rfl : e = c := by simpa using hc
        have he := (isDigit_iff e).mp (hd e (by simp))
        simp only [isBaseMark, Bool.or_eq_false_iff, beq_eq_false_iff_ne, ne_eq, ← UInt8.toNat_inj]
        simp only [UInt8.toNat_ofNat]
        omega
    cases hx : ds ++ rest with
    | nil => rfl
    | cons m ms =>
      have := hm m (by simp [hx])
      simp [numberLength, this]
  apply cuts_munch d ds rest _ hs
  rw [munch, if_pos h0, hl, ← List.cons_append, decimalLength_digits _ rest hd hr]
  simp

theorem symbol_bytes (s : Symbol) :
    (∃ b, s.bytes = [b]) ∨ ∃ b c, s.bytes = [b, c] ∧ c ∈ seconds := by
  cases s <;> first
    | exact Or.inl ⟨_, rfl⟩
    | exact Or.inr ⟨_, _, rfl, by decide⟩

theorem isPrefixOf_symbol (s t : Symbol) (rest : List UInt8) (h : ∀ c ∈ rest.head?, c ∉ seconds) :
    t.bytes.isPrefixOf (s.bytes ++ rest) = t.bytes.isPrefixOf s.bytes := by
  rcases symbol_bytes s with ⟨b, hs⟩ | ⟨b, c, hs, -⟩ <;>
    rcases symbol_bytes t with ⟨x, ht⟩ | ⟨x, y, ht, hy⟩
  · simp [hs, ht, List.isPrefixOf]
  · cases rest with
    | nil => simp
    | cons c cs =>
      have hc : y ≠ c := fun e => h c (by simp) (e ▸ hy)
      simp [hs, ht, List.isPrefixOf, hc]
  · simp [hs, ht, List.isPrefixOf]
  · simp [hs, ht, List.isPrefixOf]

theorem cuts_symbol (s : Symbol) (rest : List UInt8) (h : ∀ c ∈ rest.head?, c ∉ seconds) :
    Cuts s.bytes [.symbol s] rest := by
  have hf : (Symbol.all.find? fun t => t.bytes.isPrefixOf (s.bytes ++ rest)) = some s := by
    simp only [isPrefixOf_symbol s _ rest h]
    cases s <;> decide
  obtain ⟨b, bs, hs, hb⟩ : ∃ b bs, s.bytes = b :: bs ∧ (isSpace b || isDigit b || isWordStart b
      || b == 34 || b == 39) = false := by
    cases s <;> exact ⟨_, _, rfl, by decide⟩
  simp only [Bool.or_eq_false_iff] at hb
  obtain ⟨⟨⟨⟨hsp, hd⟩, hw⟩, hq⟩, ha⟩ := hb
  rw [hs] at hf ⊢
  apply cuts_munch b bs rest _ hsp
  rw [List.cons_append] at hf
  simp [munch, hd, hw, hq, ha, hf, hs]

/-- The characters that stand for themselves in a string or have a letter of their own. -/
def isLiteralChar (c : Char) : Bool :=
  (32 ≤ c.toNat && c.toNat ≤ 126) || c == '\n' || c == '\r' || c == '\t'

/-- The bytes of an escaped character are its own byte or a backslash and a letter for it. -/
def isEscapeOf (b : UInt8) : List UInt8 → Bool
  | [c] => c == b && c != 34 && c != 92
  | [c, e] => c == 92 && unescape e == b
  | _ => false

theorem escape_literal (c : Char) (h : isLiteralChar c = true) :
    String.utf8EncodeChar c = [byte c] ∧
      isEscapeOf (byte c) ((Text.escape '"' c).flatMap String.utf8EncodeChar) = true := by
  have hn : c.toNat < 127 := by
    simp only [isLiteralChar, Bool.or_eq_true, Bool.and_eq_true, decide_eq_true_eq, beq_iff_eq] at h
    rcases h with ((h | rfl) | rfl) | rfl
    · omega
    all_goals decide
  have all : ∀ n < 127, isLiteralChar (Char.ofNat n) = true →
      String.utf8EncodeChar (Char.ofNat n) = [byte (Char.ofNat n)] ∧
        isEscapeOf (byte (Char.ofNat n))
          ((Text.escape '"' (Char.ofNat n)).flatMap String.utf8EncodeChar) = true := by
    decide +kernel
  have := all c.toNat hn
  rw [Char.ofNat_toNat] at this
  exact this h

theorem stringBody_escape (b : UInt8) (es rest : List UInt8) (he : isEscapeOf b es = true)
    (hr : rest ≠ []) :
    stringBody 34 (es ++ rest)
      = (stringBody 34 rest).map fun r => (b :: r.1, r.2 + es.length) := by
  obtain ⟨d, ds, rfl⟩ := List.exists_cons_of_ne_nil hr
  unfold isEscapeOf at he
  split at he
  next c =>
    simp only [Bool.and_eq_true, beq_iff_eq, bne_iff_ne, ne_eq] at he
    obtain ⟨⟨rfl, hq⟩, hb⟩ := he
    simp [stringBody, hq, hb]
  next c e =>
    simp only [Bool.and_eq_true, beq_iff_eq] at he
    obtain ⟨rfl, rfl⟩ := he
    simp [stringBody]
  next => simp at he

theorem stringBody_literal (cs : List Char) (rest : List UInt8)
    (h : ∀ c ∈ cs, isLiteralChar c = true) :
    stringBody 34 ((cs.flatMap (Text.escape '"')).flatMap String.utf8EncodeChar ++ 34 :: rest)
      = some (cs.flatMap String.utf8EncodeChar,
        ((cs.flatMap (Text.escape '"')).flatMap String.utf8EncodeChar).length + 1) := by
  induction cs with
  | nil => cases rest <;> simp [stringBody]
  | cons c cs ih =>
    obtain ⟨hb, he⟩ := escape_literal c (h c (by simp))
    simp only [List.flatMap_cons, List.flatMap_append, List.append_assoc]
    rw [stringBody_escape _ _ _ he (by simp), ih fun d hd => h d (List.mem_cons_of_mem c hd)]
    simp [hb]
    omega

theorem cuts_string (s : String) (rest : List UInt8) (h : ∀ c ∈ s.toList, isLiteralChar c = true) :
    Cuts (Text.utf8 (Text.quoted s)) [.str (Text.utf8 s)] rest := by
  have hb := stringBody_literal s.toList rest h
  have hq : Text.utf8 (Text.quoted s)
      = 34 :: ((s.toList.flatMap (Text.escape '"')).flatMap String.utf8EncodeChar ++ [34]) := by
    have he : String.utf8EncodeChar '"' = [34] := by decide
    simp [Text.quoted, Text.utf8, he]
  rw [hq]
  apply cuts_munch 34 _ rest _ (by decide)
  have hd : isDigit 34 = false := by decide
  have hw : isWordStart 34 = false := by decide
  rw [List.append_assoc, List.singleton_append, munch]
  simp [hd, hw, hb, Text.utf8]

end Token
end FormatFuzz
