import FormatFuzz.Proofs.Double.Spelling
import FormatFuzz.Proofs.Expr.Lexing
import FormatFuzz.Proofs.Program.Words
import FormatFuzz.Proofs.Quoted
import Mathlib.Data.Bool.AllAny
import Mathlib.Data.List.Find

/-!
# Reading code as tokens

A text is read as tokens in front of what follows it, since a token is the longest one that can be
read: a name ends before a character that is no part of one, a number before one that cannot go on
with it, and a minus sign before anything but a minus or an equals sign. `Reads ends s ts` says that
`s` is read as `ts` in front of every rest that is empty or begins with a character of `ends`.
-/

set_option autoImplicit false

namespace FormatFuzz.Program

def texts (cs : List Char) : Option (List String) :=
  (tokensFrom .none 0 cs).map (List.map Piece.token)

theorem texts_from (gap : Gap) (skip : Nat) (cs : List Char) :
    (tokensFrom gap skip cs).map (List.map Piece.token) = texts (cs.drop skip) := by
  induction cs generalizing gap skip with
  | nil => simp [tokensFrom, texts]
  | cons c cs ih =>
    cases skip with
    | succ skip =>
      rw [tokensFrom, ih, List.drop_succ_cons]
    | zero =>
      rw [List.drop_zero, texts, tokensFrom, tokensFrom]
      split
      · rfl
      · split
        · rw [ih, ih]
        · simp only [Option.bind_eq_bind, Option.map_bind, Function.comp_def, Option.pure_def,
            Option.map_some, List.map_cons]

theorem texts_nil : texts [] = some [] := by
  simp [texts, tokensFrom]

theorem texts_blank (cs : List Char) : texts (' ' :: cs) = texts cs := by
  rw [texts, tokensFrom, if_neg (by decide), if_pos (by decide), texts_from, List.drop_zero]

theorem texts_token (c : Char) (cs : List Char) (n : Nat) (hc : Text.isBlank c = false)
    (hn : tokenLength c cs = some (n + 1)) :
    texts (c :: cs) = (texts (cs.drop n)).map (cleanToken ((c :: cs).take (n + 1)) :: ·) := by
  have htab : c ≠ '\t' := by
    rintro rfl
    cases hc
  rw [texts, tokensFrom, if_neg htab, if_neg (by simp [hc]), hn, Option.bind_eq_bind,
    Option.bind_some, Nat.add_sub_cancel, ← texts_from .none n cs]
  cases tokensFrom .none n cs with
  | none => rfl
  | some ps => rfl

theorem tokens_of_texts (line : String) (ts : List String) (h : texts line.toList = some ts) :
    ∃ ps, tokens line = some ps ∧ ps.map Piece.token = ts := by
  obtain ⟨ps, hps, hts⟩ := Option.map_eq_some_iff.mp h
  exact ⟨ps, hps, hts⟩

/-- A text is read as some tokens in front of every rest that is empty or begins with one of some
characters. -/
def Reads (ends : Char → Bool) (s : String) (ts : List String) : Prop :=
  ∀ rest : List Char, (∀ c ∈ rest.head?, ends c = true) →
    texts (s.toList ++ rest) = (texts rest).map (ts ++ ·)

def anything (_ : Char) : Bool := true

def closes (c : Char) : Bool :=
  [')', ',', ' ', '\x7d'].contains c

variable {ends ends' : Char → Bool} {s t : String} {ts us : List String}

theorem Reads.mono (h : Reads ends s ts) (hends : ∀ c, ends' c = true → ends c = true) :
    Reads ends' s ts :=
  fun rest hrest => h rest fun c hc => hends c (hrest c hc)

theorem Reads.tokens (h : Reads ends s ts) : ∃ ps, tokens s = some ps ∧ ps.map Piece.token = ts := by
  refine tokens_of_texts s ts ?_
  have := h [] (by simp)
  rwa [List.append_nil, texts_nil, Option.map_some, List.append_nil] at this

theorem reads_empty : Reads ends "" [] := by
  intro rest _
  simp

theorem reads_blank : Reads anything " " [] := by
  intro rest _
  simpa using texts_blank rest

theorem Reads.append_of (hs : Reads ends s ts) (ht : Reads ends' t us)
    (hbegins : ∀ rest : List Char, (∀ c ∈ rest.head?, ends' c = true) →
      ∀ c ∈ (t.toList ++ rest).head?, ends c = true) : Reads ends' (s ++ t) (ts ++ us) := by
  intro rest hrest
  rw [String.toList_append, List.append_assoc, hs _ (hbegins rest hrest), ht rest hrest,
    Option.map_map]
  simp [Function.comp_def]

theorem Reads.append (hs : Reads ends s ts) (ht : Reads ends' t us)
    (hbegins : ∃ c cs, t.toList = c :: cs ∧ ends c = true) : Reads ends' (s ++ t) (ts ++ us) := by
  obtain ⟨c, cs, hcs, hc⟩ := hbegins
  refine hs.append_of ht fun rest _ d hd => ?_
  rw [hcs] at hd
  obtain rfl : c = d := by simpa using hd
  exact hc

theorem Reads.append_anything (hs : Reads anything s ts) (ht : Reads ends' t us) :
    Reads ends' (s ++ t) (ts ++ us) :=
  hs.append_of ht fun _ _ _ _ => rfl

theorem reads_token (c : Char) (cs : List Char) (hs : s.toList = c :: cs)
    (hblank : Text.isBlank c = false) (hclean : cleanToken s.toList = s)
    (hlength : ∀ rest : List Char, (∀ d ∈ rest.head?, ends d = true) →
      tokenLength c (cs ++ rest) = some (cs.length + 1)) : Reads ends s [s] := by
  intro rest hrest
  rw [hs] at hclean
  rw [hs, List.cons_append, texts_token c (cs ++ rest) cs.length hblank (hlength rest hrest),
    List.drop_left, ← List.cons_append, ← List.length_cons, List.take_left, hclean]
  rfl

theorem cleanToken_eq (c : Char) (cs : List Char) (hs : s.toList = c :: cs) (hc : c ≠ '/') :
    cleanToken s.toList = s := by
  rw [hs, cleanToken]
  · rw [← hs, String.ofList_toList]
  · rintro ds heq
    exact hc (List.cons.inj heq).1

/-- A character that begins no name, number, text or comment, in front of what does not make it a
longer operator. -/
theorem reads_single (c : Char) (h : Text.isBlank c = false ∧ isNameStart c = false ∧
    c.isDigit = false ∧ c ≠ '"' ∧ c ≠ '/') (hop : ∀ rest : List Char,
      (∀ d ∈ rest.head?, ends d = true) →
        longOperators.find? (fun op => op.toList.isPrefixOf (c :: rest)) = none) :
    Reads ends (String.singleton c) [String.singleton c] := by
  obtain ⟨hblank, hname, hdigit, hquote, hslash⟩ := h
  refine reads_token c [] (by simp) hblank (cleanToken_eq c [] (by simp) hslash) fun rest hrest => ?_
  rw [List.nil_append, tokenLength, hname, hdigit, if_neg Bool.false_ne_true,
    if_neg Bool.false_ne_true, if_neg hquote, if_neg (by simp [hslash]), hop rest hrest]
  rfl

theorem reads_mark (c : Char) (h : c ∈ ['(', ')', '[', ']', '\x7b', '\x7d', ',']) :
    Reads anything (String.singleton c) [String.singleton c] := by
  have all : ∀ d ∈ ['(', ')', '[', ']', '\x7b', '\x7d', ','], Text.isBlank d = false ∧
      isNameStart d = false ∧ d.isDigit = false ∧ d ≠ '"' ∧ d ≠ '/' :=
    List.all_iff_forall_prop.mp (by decide)
  refine reads_single c (all c h) fun rest _ => ?_
  simp only [List.mem_cons, List.not_mem_nil, or_false] at h
  rcases h with rfl | rfl | rfl | rfl | rfl | rfl | rfl <;> simp [longOperators]

theorem reads_point : Reads (fun c => c != '.') "." ["."] := by
  refine reads_single '.' (by decide) fun rest hrest => ?_
  cases rest with
  | nil => decide
  | cons d ds =>
    have hd : d ≠ '.' := by simpa using hrest d rfl
    simp [longOperators, hd.symm]

theorem isPrefixOf_blank (op w rest : List Char) (h : ' ' ∉ op) :
    op.isPrefixOf (w ++ ' ' :: rest) = op.isPrefixOf w := by
  induction op generalizing w with
  | nil => simp
  | cons d ds ih =>
    obtain ⟨hd, hds⟩ : ' ' ≠ d ∧ ' ' ∉ ds := by simpa using h
    cases w with
    | nil => simp [List.isPrefixOf_cons_cons, hd.symm]
    | cons c cs => simp only [List.cons_append, List.isPrefixOf_cons_cons, ih cs hds]

def IsOperator : List Char → Prop
  | [] => False
  | c :: cs => Text.isBlank c = false ∧ isNameStart c = false ∧ c.isDigit = false ∧ c ≠ '"' ∧
    (c = '/' → cs = []) ∧
    (longOperators.find? fun op => op.toList.isPrefixOf (c :: cs)).elim 1 String.length = cs.length + 1

instance : DecidablePred IsOperator
  | [] => inferInstanceAs (Decidable False)
  | _ :: _ => inferInstanceAs (Decidable (_ ∧ _))

theorem isOperator_text (op : BinaryOp) : IsOperator op.text.toList := by
  cases op <;> decide

theorem reads_operator (op : BinaryOp) : Reads (fun c => c == ' ') op.text [op.text] := by
  have hop := isOperator_text op
  generalize op.text = s at hop ⊢
  cases hs : s.toList with
  | nil =>
    rw [hs] at hop
    exact hop.elim
  | cons c cs =>
    rw [hs] at hop
    obtain ⟨hblank, hname, hdigit, hquote, hslash, hlength⟩ := hop
    refine reads_token c cs hs hblank ?_ fun rest hrest => ?_
    · by_cases hc : c = '/'
      · rw [hs, hslash hc, hc, ← String.toList_inj, hs, hslash hc, hc]
        rfl
      · exact cleanToken_eq c cs hs hc
    · have hcomment : (c = '/' && (cs ++ rest).head? == some '/') = false := by
        rw [Bool.and_eq_false_imp]
        intro hc
        rw [hslash (by simpa using hc), List.nil_append]
        cases rest with
        | nil => rfl
        | cons d ds =>
          obtain rfl : d = ' ' := by simpa using hrest d rfl
          rfl
      have hfind : (longOperators.find? fun op => op.toList.isPrefixOf (c :: (cs ++ rest)))
          = longOperators.find? fun op => op.toList.isPrefixOf (c :: cs) := by
        cases rest with
        | nil => rw [List.append_nil]
        | cons d ds =>
          obtain rfl : d = ' ' := by simpa using hrest d rfl
          have hblank : ∀ op ∈ longOperators, ' ' ∉ op.toList := by decide
          exact List.find?_congr fun op hop =>
            isPrefixOf_blank op.toList (c :: cs) ds (hblank op hop)
      rw [tokenLength, hname, hdigit, if_neg Bool.false_ne_true, if_neg Bool.false_ne_true,
        if_neg hquote, hcomment, if_neg Bool.false_ne_true, hfind, ← hlength]
      cases longOperators.find? fun op => op.toList.isPrefixOf (c :: cs) <;> rfl

/-- What a sign in front of an operand does not go on with: an equals sign, and another minus sign if
it is one itself. -/
def endsSign (c d : Char) : Bool :=
  d != '=' && (c != '-' || d != '-')

theorem reads_sign (c : Char) (h : c ∈ ['-', '^', '!']) :
    Reads (endsSign c) (String.singleton c) [String.singleton c] := by
  have all : ∀ d ∈ ['-', '^', '!'], Text.isBlank d = false ∧ isNameStart d = false ∧
      d.isDigit = false ∧ d ≠ '"' ∧ d ≠ '/' :=
    List.all_iff_forall_prop.mp (by decide)
  refine reads_single c (all c h) fun rest hrest => ?_
  simp only [List.mem_cons, List.not_mem_nil, or_false] at h
  cases rest with
  | nil => rcases h with rfl | rfl | rfl <;> decide
  | cons d ds =>
    have hd : d ≠ '=' ∧ (c = '-' → d ≠ '-') := by
      simpa [endsSign, imp_iff_not_or] using hrest d rfl
    rcases h with rfl | rfl | rfl
    · simp [longOperators, hd.1.symm, (hd.2 rfl).symm]
    · simp [longOperators, hd.1.symm]
    · simp [longOperators, hd.1.symm]

theorem reads_fused : Reads anything "--" ["--"] := by
  refine reads_token '-' ['-'] rfl (by decide) (cleanToken_eq '-' ['-'] rfl (by decide))
    fun rest _ => ?_
  have hname : isNameStart '-' = false := by decide
  have hdigit : ('-' : Char).isDigit = false := by decide
  have hsize : "--".length = 2 := rfl
  rw [tokenLength, hname, hdigit]
  simp [longOperators, hsize]

theorem isNamePart_of_isNameChar (c : Char) (h : isNameChar c = true) : isNamePart c = true :=
  isNameChar_induction isNamePart (by decide) c h

theorem reads_name (h : IsName s) : Reads (fun c => !isNamePart c) s [s] := by
  obtain ⟨c, cs, hs, hc, hcs⟩ := h
  have hpart := isNameChar_alpha c hc
  have hstart : isNameStart c = true := by
    simpa [hc] using
      isNameChar_induction (fun c => !c.isAlpha || isNameStart c) (by decide) c hpart
  have hblank : Text.isBlank c = false := by
    simpa using isNameChar_induction (fun c => !Text.isBlank c) (by decide) c hpart
  refine reads_token c cs hs hblank (cleanToken_eq c cs hs ?_) fun rest hrest => ?_
  · rintro rfl
    cases hc
  · have hparts : (cs ++ rest).takeWhile isNamePart = cs :=
      Token.takeWhile_front _ cs rest (fun d hd => isNamePart_of_isNameChar d (hcs d hd))
        fun d hd => by simpa using hrest d hd
    rw [tokenLength, if_pos hstart, hparts, Nat.add_comm]

def isDecimalChar (c : Char) : Bool :=
  c.isDigit || ['.', 'e', '+', '-'].contains c

theorem isDigit_induction (P : Char → Bool)
    (h : ∀ n < 128, (Char.ofNat n).isDigit = true → P (Char.ofNat n) = true) (c : Char)
    (hc : c.isDigit = true) : P c = true := by
  have hall := Text.isWordChar_induction (fun c => !c.isDigit || P c) (fun n hn _ => ?_) c
    (by simp [Text.isWordChar, hc])
  · simpa [hc] using hall
  · cases hd : (Char.ofNat n).isDigit with
    | false => rfl
    | true => exact h n hn hd

theorem numberLength_digits (hex : Bool) (ds rest : List Char) (h : ∀ d ∈ ds, d.isDigit = true) :
    numberLength hex false (ds ++ rest) = ds.length + numberLength hex false rest := by
  induction ds with
  | nil => simp
  | cons d ds ih =>
    obtain ⟨hd, hds⟩ := List.forall_mem_cons.mp h
    have hnum : (d.isAlphanum || d == '.' || d == '_') = true := by simp [Char.isAlphanum, hd]
    have hexp : (d == 'e' || d == 'E') = false := by
      simpa using isDigit_induction (fun c => !(c == 'e' || c == 'E')) (by decide) d hd
    rw [List.cons_append, numberLength, if_pos hnum, hexp, Bool.and_false, ih hds, List.length_cons]
    omega

theorem numberLength_closes (hex : Bool) (rest : List Char) (h : ∀ c ∈ rest.head?, closes c = true) :
    numberLength hex false rest = 0 := by
  cases rest with
  | nil => rfl
  | cons c cs =>
    have hall : ∀ d ∈ [')', ',', ' ', '\x7d'], (d.isAlphanum || d == '.' || d == '_') = false :=
      List.all_iff_forall_prop.mp (by decide)
    have hc := hall c (by simpa [closes] using h c rfl)
    rw [numberLength, if_neg (by simp [hc])]
    rfl

open Numeral in
theorem numberLength_spelling (n : Spelling) (hn : n.Valid) (rest : List Char)
    (h : ∀ c ∈ rest.head?, closes c = true) :
    numberLength false false (n.chars ++ rest) = n.chars.length := by
  have hexpo : numberLength false false (n.expoChars ++ rest) = n.expoChars.length := by
    unfold Spelling.expoChars
    cases he : n.expo with
    | none => exact numberLength_closes false rest h
    | some e =>
      obtain ⟨neg, ds⟩ := e
      obtain ⟨-, hds, -⟩ := hn.expo neg ds he
      have hdigits := numberLength_digits false ds rest hds
      rw [numberLength_closes false rest h] at hdigits
      cases neg <;>
        simp [numberLength, hdigits, show ('-' : Char).isAlphanum = false by decide,
          show ('+' : Char).isAlphanum = false by decide] <;> omega
  have hpoint : numberLength false false (n.pointChars ++ (n.expoChars ++ rest)) =
      n.pointChars.length + n.expoChars.length := by
    unfold Spelling.pointChars
    split
    · simpa using hexpo
    · have := numberLength_digits false n.places (n.expoChars ++ rest) hn.places
      simp [numberLength, this, hexpo]
      omega
  rw [Spelling.chars, List.append_assoc, List.append_assoc,
    numberLength_digits false n.whole _ hn.whole, hpoint]
  simp

theorem isHexNumber_decimal (c : Char) (cs : List Char) (hcs : ∀ d ∈ cs.head?, d ≠ 'x' ∧ d ≠ 'X') :
    isHexNumber (c :: cs) = false := by
  unfold isHexNumber
  split
  next ds heq =>
    obtain ⟨-, rfl⟩ := List.cons.inj heq
    exact absurd rfl (hcs 'x' rfl).1
  next ds heq =>
    obtain ⟨-, rfl⟩ := List.cons.inj heq
    exact absurd rfl (hcs 'X' rfl).2
  next => rfl

open Numeral in
theorem isDecimalChar_chars (n : Spelling) (hn : n.Valid) : ∀ c ∈ n.chars, isDecimalChar c = true := by
  have hdigit (c : Char) (hc : c.isDigit = true) : isDecimalChar c = true := by
    simp [isDecimalChar, hc]
  intro c hc
  rw [Spelling.chars, Spelling.pointChars, Spelling.expoChars] at hc
  rcases List.mem_append.mp hc with hc | hc
  · exact hdigit c (hn.whole c hc)
  rcases List.mem_append.mp hc with hc | hc
  · split at hc
    · cases hc
    · rcases List.mem_cons.mp hc with rfl | hc
      · decide
      · exact hdigit c (hn.places c hc)
  · split at hc
    · cases hc
    next neg ds he =>
      simp only [List.mem_cons] at hc
      rcases hc with rfl | rfl | hc
      · decide
      · cases neg <;> decide
      · exact hdigit c ((hn.expo neg ds he).2.1 c hc)

theorem tokenLength_digit (c : Char) (cs : List Char) (hc : c.isDigit = true) :
    tokenLength c cs = some (numberLength (isHexNumber (c :: cs)) false (c :: cs)) := by
  have hname : isNameStart c = false := by
    simpa using isDigit_induction (fun c => !isNameStart c) (by decide) c hc
  rw [tokenLength, hname, if_neg Bool.false_ne_true, if_pos hc]

theorem reads_number (c : Char) (cs : List Char) (hs : s.toList = c :: cs) (hc : c.isDigit = true)
    (hlength : ∀ rest : List Char, (∀ d ∈ rest.head?, closes d = true) →
      numberLength (isHexNumber (c :: (cs ++ rest))) false (c :: (cs ++ rest)) = cs.length + 1) :
    Reads closes s [s] := by
  have hblank : Text.isBlank c = false := by
    simpa using isDigit_induction (fun c => !Text.isBlank c) (by decide) c hc
  have hslash : c ≠ '/' := by
    rintro rfl
    cases hc
  refine reads_token c cs hs hblank (cleanToken_eq c cs hs hslash) fun rest hrest => ?_
  rw [tokenLength_digit c _ hc, hlength rest hrest]

theorem reads_spelling (n : Numeral.Spelling) (hn : n.Valid) (hs : s.toList = n.chars) :
    Reads closes s [s] := by
  obtain ⟨c, cs, hwhole⟩ := List.exists_cons_of_ne_nil hn.nonempty
  have hchars : n.chars = c :: (cs ++ (n.pointChars ++ n.expoChars)) := by
    rw [Numeral.Spelling.chars, hwhole, List.cons_append]
  refine reads_number c _ (hs.trans hchars) (hn.whole c (by simp [hwhole])) fun rest hrest => ?_
  have hhex := isHexNumber_decimal c ((cs ++ (n.pointChars ++ n.expoChars)) ++ rest) fun d hd => by
    have hd : isDecimalChar d = true ∨ closes d = true := by
      cases htail : cs ++ (n.pointChars ++ n.expoChars) with
      | nil =>
        rw [htail] at hd
        exact .inr (hrest d hd)
      | cons e es =>
        rw [htail] at hd
        obtain rfl : e = d := by simpa using hd
        exact .inl (isDecimalChar_chars n hn e (by simp [hchars, htail]))
    constructor <;> rintro rfl <;> rcases hd with hd | hd <;> revert hd <;> decide
  have hlength := numberLength_spelling n hn rest hrest
  rw [hchars, List.cons_append] at hlength
  rw [hhex, hlength, List.length_cons]

theorem spelling_digits (ds : List Char) (hne : ds ≠ []) (h : ∀ d ∈ ds, d.isDigit = true) :
    (⟨ds, [], none⟩ : Numeral.Spelling).Valid :=
  ⟨hne, h, by simp, by simp⟩

theorem reads_nat (n : Nat) (hs : s.toList = Nat.toDigits 10 n) : Reads closes s [s] := by
  have hdigits : ∀ c ∈ Nat.toDigits 10 n, c.isDigit = true :=
    fun c hc => Nat.isDigit_of_mem_toDigits (by omega) (by omega) hc
  refine reads_spelling ⟨Nat.toDigits 10 n, [], none⟩
    (spelling_digits _ (by simp [Nat.toDigits_ne_nil]) hdigits) ?_
  simp [hs, Numeral.Spelling.chars, Numeral.Spelling.pointChars, Numeral.Spelling.expoChars]

theorem reads_byteCode (b : UInt8) : Reads closes (byteCode b) [byteCode b] := by
  obtain ⟨d, e, hb⟩ : ∃ d e, (byteCode b).toList = ['0', 'x', Text.hexDigit d, Text.hexDigit e] :=
    ⟨b.toNat / 16, b.toNat, by
      simp [byteCode, Text.hex, Text.hexFixed, List.range_succ]⟩
  have halnum (n : Nat) : (Text.hexDigit n).isAlphanum = true := by
    have all : ∀ d < 16, (Text.hexDigit d).isAlphanum = true := by decide
    have hd : Text.hexDigit n = Text.hexDigit (n % 16) := by simp [Text.hexDigit]
    rw [hd]
    exact all _ (Nat.mod_lt n (by omega))
  refine reads_number '0' _ hb (by decide) fun rest hrest => ?_
  have hrest := numberLength_closes true rest hrest
  simp [isHexNumber, numberLength, halnum, hrest]

theorem stringLength_plain (c : Char) (cs : List Char) (hq : c ≠ '"') (hb : c ≠ '\\') :
    stringLength (c :: cs) = (stringLength cs).map (· + 1) := by
  rw [stringLength]
  · rw [if_neg hq]
  · rintro d ds rfl
    exact absurd rfl hb

theorem stringLength_plains (cs rest : List Char) (h : ∀ c ∈ cs, c ≠ '"' ∧ c ≠ '\\') :
    stringLength (cs ++ rest) = (stringLength rest).map (· + cs.length) := by
  induction cs with
  | nil => simp
  | cons c cs ih =>
    obtain ⟨hc, hcs⟩ := List.forall_mem_cons.mp h
    rw [List.cons_append, stringLength_plain c _ hc.1 hc.2, ih hcs, Option.map_map]
    rfl

theorem stringLength_escaped (l : Char) (cs rest : List Char)
    (h : ∀ c ∈ cs, c ≠ '"' ∧ c ≠ '\\') :
    stringLength ('\\' :: l :: cs ++ rest) = (stringLength rest).map (· + (cs.length + 2)) := by
  rw [List.cons_append, List.cons_append, stringLength, stringLength_plains cs rest h, Option.map_map]
  rfl

theorem plain_hexFixed (width n : Nat) : ∀ c ∈ Text.hexFixed width n, c ≠ '"' ∧ c ≠ '\\' := by
  intro c hc
  obtain ⟨i, -, rfl⟩ := List.mem_map.mp hc
  have all : ∀ d < 16, Text.hexDigit d ≠ '"' ∧ Text.hexDigit d ≠ '\\' := by decide
  generalize n / Nat.pow 16 (width - 1 - i) = d
  have hd : Text.hexDigit d = Text.hexDigit (d % 16) := by simp [Text.hexDigit]
  rw [hd]
  exact all _ (Nat.mod_lt d (by omega))

theorem stringLength_escape (c : Char) (rest : List Char) :
    stringLength (Text.escape '"' c ++ rest) =
      (stringLength rest).map (· + (Text.escape '"' c).length) := by
  unfold Text.escape
  split
  next => exact stringLength_escaped c [] rest (by simp)
  next h =>
    have hc : c ≠ '"' ∧ c ≠ '\\' := by simpa using h
    split
    next => exact stringLength_plains [c] rest (by simpa using hc)
    next =>
      split
      next l _ => exact stringLength_escaped l [] rest (by simp)
      next =>
        split
        next => exact stringLength_escaped 'x' _ rest (plain_hexFixed 2 c.toNat)
        next =>
          split
          next => exact stringLength_escaped 'u' _ rest (plain_hexFixed 4 c.toNat)
          next => exact stringLength_escaped 'U' _ rest (plain_hexFixed 8 c.toNat)

theorem stringLength_escapes (cs rest : List Char) :
    stringLength (cs.flatMap (Text.escape '"') ++ '"' :: rest) =
      some ((cs.flatMap (Text.escape '"')).length + 1) := by
  induction cs with
  | nil => rfl
  | cons c cs ih =>
    rw [List.flatMap_cons, List.append_assoc, stringLength_escape, ih, Option.map_some,
      List.length_append]
    congr 1
    omega

theorem reads_quoted (text : String) : Reads anything (Text.quoted text) [Text.quoted text] := by
  have hs := Text.toList_quoted text
  refine reads_token '"' _ hs (by decide) (cleanToken_eq '"' _ hs (by decide)) fun rest _ => ?_
  have hname : isNameStart '"' = false := by decide
  have hdigit : ('"' : Char).isDigit = false := by decide
  rw [tokenLength, hname, hdigit, if_neg Bool.false_ne_true, if_neg Bool.false_ne_true, if_pos rfl,
    List.append_assoc, List.singleton_append, stringLength_escapes, Option.map_some]
  simp

end FormatFuzz.Program
