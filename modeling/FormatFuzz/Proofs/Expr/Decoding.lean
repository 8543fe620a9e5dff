import FormatFuzz.Proofs.Expr.Formation
import FormatFuzz.Proofs.Quoted

/-!
# One clear tree for a text

A tree is clear if signs stand outside attributes and indices, its integers carry no sign, and no
double is written as an integer. The text of a clear tree in front of anything that ends an operand
gives back the tree and the rest. Attributes and indices grow a text at its end, so the proof
carries the list of those already met: `Spreads`.
-/

set_option autoImplicit false

namespace FormatFuzz

theorem run_append_inj {α : Type} (p : α → Bool) (xs ys rest tail : List α)
    (hx : ∀ c ∈ xs, p c = true) (hy : ∀ c ∈ ys, p c = true) (hr : ∀ c ∈ rest.head?, p c = false)
    (ht : ∀ c ∈ tail.head?, p c = false) (h : xs ++ rest = ys ++ tail) : xs = ys ∧ rest = tail := by
  have hxy : xs = ys := by
    rw [← Token.takeWhile_front p xs rest hx hr, h, Token.takeWhile_front p ys tail hy ht]
  subst hxy
  exact ⟨rfl, List.append_cancel_left h⟩

namespace Expr

open Token (isIdentifier isNameStart isNamePart)
open Numeral (Spelling)

def Ends (cs : List Char) : Prop :=
  ∀ c ∈ cs.head?, c ∈ [' ', ')', ',', ']']

/-- What follows an operand inside a text: it may be an attribute or an index. -/
inductive Follows : List Char → Prop
  | ends {cs : List Char} (h : Ends cs) : Follows cs
  | point {c : Char} {cs : List Char} (h : isNameStart c = true) : Follows ('.' :: c :: cs)
  | bracket {cs : List Char} : Follows ('[' :: cs)

theorem Follows.head {cs : List Char} (h : Follows cs) (p : Char → Bool)
    (hp : [' ', ')', ',', ']', '.', '['].any p = false) : ∀ c ∈ cs.head?, p c = false := by
  have hp : ∀ c ∈ [' ', ')', ',', ']', '.', '['], p c = false := by simpa using hp
  intro c hc
  refine hp c ?_
  cases h with
  | ends h =>
    have := h c hc
    revert this
    simp only [List.mem_cons, List.not_mem_nil, or_false]
    rintro (h | h | h | h) <;> simp [h]
  | point =>
    obtain rfl : '.' = c := by simpa using hc
    simp
  | bracket =>
    obtain rfl : '[' = c := by simpa using hc
    simp

theorem ends_nil : Ends [] := by
  simp [Ends]

theorem ends_blank (cs : List Char) : Ends (' ' :: cs) := by
  simp [Ends]

theorem ends_paren (cs : List Char) : Ends (')' :: cs) := by
  simp [Ends]

theorem ends_comma (cs : List Char) : Ends (',' :: cs) := by
  simp [Ends]

theorem ends_bracket (cs : List Char) : Ends (']' :: cs) := by
  simp [Ends]

theorem isDigit_isNameStart (c : Char) (h : isNameStart c = true) : c.isDigit = false := by
  rw [Bool.eq_false_iff]
  intro hd
  rw [Char.isDigit_iff_toNat] at hd
  simp only [isNameStart, Bool.or_eq_true, beq_iff_eq, Text.isAlpha_iff, Text.isUpper_iff,
    Text.isLower_iff, Char.reduceToNat] at h hd
  rcases h with rfl | h
  · revert hd
    decide
  · omega

theorem expo_head (s : Spelling) (rest : List Char) (h : Follows rest) :
    ∀ c ∈ (s.expoChars ++ rest).head?, c.isDigit = false := by
  unfold Spelling.expoChars
  cases s.expo with
  | none => exact h.head _ (by decide)
  | some e =>
    rintro c hc
    obtain rfl : 'e' = c := by simpa using hc
    decide

theorem expo_append_inj (s t : Spelling) (hs : s.Valid) (ht : t.Valid) (rest tail : List Char)
    (hr : Follows rest) (hl : Follows tail) (h : s.expoChars ++ rest = t.expoChars ++ tail) :
    s.expoChars = t.expoChars ∧ rest = tail := by
  have hmark : ∀ cs : List Char, ¬ Follows ('e' :: cs) := by
    intro cs hf
    have := hf.head (· == 'e') (by decide) 'e' (by simp)
    simp at this
  unfold Spelling.expoChars at h ⊢
  cases hse : s.expo with
  | none =>
    cases hte : t.expo with
    | none => simpa [hse, hte] using h
    | some e =>
      obtain rfl : rest = 'e' :: _ := by simpa [hse, hte] using h
      exact absurd hr (hmark _)
  | some d =>
    obtain ⟨sneg, ds⟩ := d
    cases hte : t.expo with
    | none =>
      obtain rfl : 'e' :: _ = tail := by simpa [hse, hte] using h
      exact absurd hl (hmark _)
    | some e =>
      obtain ⟨tneg, es⟩ := e
      simp only [hse, hte, List.cons_append, List.cons.injEq, true_and] at h
      obtain ⟨hneg, hdigits⟩ := h
      obtain ⟨rfl, rfl⟩ := run_append_inj Char.isDigit ds es rest tail (hs.expo _ _ hse).2.1
        (ht.expo _ _ hte).2.1 (hr.head _ (by decide)) (hl.head _ (by decide)) hdigits
      exact ⟨by simp [hneg], rfl⟩

theorem not_point_digit (s : Spelling) (d : Char) (ds rest : List Char) (hd : d.isDigit = true)
    (hr : Follows rest) : s.expoChars ++ rest ≠ '.' :: d :: ds := by
  intro h
  unfold Spelling.expoChars at h
  cases he : s.expo with
  | some e => simp [he] at h
  | none =>
    rw [he, List.nil_append] at h
    subst h
    cases hr with
    | ends he =>
      have := he '.' (by simp)
      revert this
      decide
    | point hp => simp [isDigit_isNameStart d hp] at hd

theorem point_append_inj (s t : Spelling) (hs : s.Valid) (ht : t.Valid) (rest tail : List Char)
    (hr : Follows rest) (hl : Follows tail)
    (h : s.pointChars ++ (s.expoChars ++ rest) = t.pointChars ++ (t.expoChars ++ tail)) :
    s.pointChars = t.pointChars ∧ s.expoChars ++ rest = t.expoChars ++ tail := by
  unfold Spelling.pointChars at h ⊢
  cases hsp : s.places with
  | nil =>
    cases htp : t.places with
    | nil => simpa [hsp, htp] using h
    | cons d ds =>
      have hd : d.isDigit = true := ht.places d (by simp [htp])
      exact absurd (by simpa [hsp, htp] using h) (not_point_digit s d _ rest hd hr)
  | cons c cs =>
    have hcs := hs.places
    rw [hsp] at hcs
    cases htp : t.places with
    | nil =>
      exact absurd (by simpa [hsp, htp] using h.symm)
        (not_point_digit t c _ tail (hcs c (by simp)) hl)
    | cons d ds =>
      have hds := ht.places
      rw [htp] at hds
      obtain ⟨heq, hrest⟩ := run_append_inj Char.isDigit (c :: cs) (d :: ds) _ _ hcs hds
        (expo_head s rest hr) (expo_head t tail hl) (by simpa [hsp, htp] using h)
      exact ⟨by simp [heq], hrest⟩

theorem chars_append_inj (s t : Spelling) (hs : s.Valid) (ht : t.Valid) (rest tail : List Char)
    (hr : Follows rest) (hl : Follows tail) (h : s.chars ++ rest = t.chars ++ tail) :
    s.chars = t.chars ∧ rest = tail := by
  have hpoint : ∀ (u : Spelling) (more : List Char), Follows more →
      ∀ c ∈ (u.pointChars ++ (u.expoChars ++ more)).head?, c.isDigit = false := by
    intro u more hm
    unfold Spelling.pointChars
    split
    · exact expo_head u more hm
    · rintro c hc
      obtain rfl : '.' = c := by simpa using hc
      decide
  simp only [Spelling.chars, List.append_assoc] at h ⊢
  obtain ⟨hwhole, h⟩ := run_append_inj Char.isDigit s.whole t.whole _ _ hs.whole ht.whole
    (hpoint s rest hr) (hpoint t tail hl) h
  obtain ⟨hpoint, h⟩ := point_append_inj s t hs ht rest tail hr hl h
  obtain ⟨hexpo, hrest⟩ := expo_append_inj s t hs ht rest tail hr hl h
  exact ⟨by rw [hwhole, hpoint, hexpo], hrest⟩

def pathWords : Expr → List String
  | .bool b => [if b then "true" else "false"]
  | .name id => [id]
  | .member path id => path ++ [id]
  | _ => []

theorem identifier_chars (s : String) (h : isIdentifier s = true) :
    ∃ c cs, s.toList = c :: cs ∧ isNameStart c = true ∧ ∀ d ∈ s.toList, isNamePart d = true := by
  unfold Token.isIdentifier at h
  split at h
  next => cases h
  next c cs hs =>
    rw [Bool.and_eq_true, List.all_eq_true] at h
    refine ⟨c, cs, hs, h.1, fun d hd => ?_⟩
    rw [hs] at hd
    rcases List.mem_cons.mp hd with rfl | hd
    · simp [isNamePart, h.1]
    · exact h.2 d hd

theorem identifier_append_inj (s t : String) (hs : isIdentifier s = true)
    (ht : isIdentifier t = true) (rest tail : List Char)
    (hr : ∀ c ∈ rest.head?, isNamePart c = false) (hl : ∀ c ∈ tail.head?, isNamePart c = false)
    (h : s.toList ++ rest = t.toList ++ tail) : s = t ∧ rest = tail := by
  obtain ⟨-, -, -, -, hsc⟩ := identifier_chars s hs
  obtain ⟨-, -, -, -, htc⟩ := identifier_chars t ht
  obtain ⟨hst, hrest⟩ := run_append_inj isNamePart _ _ rest tail hsc htc hr hl h
  exact ⟨String.toList_inj.mp hst, hrest⟩

def segment (w : String) : List Char := ':' :: ':' :: w.toList

theorem join_chars (w : String) (ws : List String) :
    (Text.join "::" (w :: ws)).toList = w.toList ++ ws.flatMap segment := by
  induction ws generalizing w with
  | nil => simp [Text.join]
  | cons v vs ih => simp [Text.join, ih v, segment, String.toList_append]

theorem segments_head (ws : List String) (rest : List Char) (hr : Follows rest) :
    ∀ c ∈ (ws.flatMap segment ++ rest).head?, isNamePart c = false := by
  cases ws with
  | nil => exact hr.head _ (by decide)
  | cons w ws =>
    intro c hc
    obtain rfl : ':' = c := by simpa [segment] using hc
    decide

theorem segments_append_inj (ws vs : List String) (hw : ∀ w ∈ ws, isIdentifier w = true)
    (hv : ∀ v ∈ vs, isIdentifier v = true) (rest tail : List Char) (hr : Follows rest)
    (hl : Follows tail) (h : ws.flatMap segment ++ rest = vs.flatMap segment ++ tail) :
    ws = vs ∧ rest = tail := by
  have hcolon : ∀ cs : List Char, ¬ Follows (':' :: cs) := by
    intro cs hf
    have := hf.head (· == ':') (by decide) ':' (by simp)
    simp at this
  induction ws generalizing vs with
  | nil =>
    cases vs with
    | nil => exact ⟨rfl, h⟩
    | cons v vs =>
      obtain rfl : rest = ':' :: _ := h
      exact absurd hr (hcolon _)
  | cons w ws ih =>
    cases vs with
    | nil =>
      obtain rfl : ':' :: _ = tail := h
      exact absurd hl (hcolon _)
    | cons v vs =>
      simp only [List.flatMap_cons, segment, List.cons_append, List.append_assoc,
        List.cons.injEq, true_and] at h
      obtain ⟨hw, hws⟩ := List.forall_mem_cons.mp hw
      obtain ⟨hv, hvs⟩ := List.forall_mem_cons.mp hv
      obtain ⟨rfl, hnext⟩ := identifier_append_inj w v hw hv _ _ (segments_head ws rest hr)
        (segments_head vs tail hl) h
      obtain ⟨rfl, hrest⟩ := ih vs hws hvs hnext
      exact ⟨rfl, hrest⟩

theorem join_append_inj (ws vs : List String) (hwn : ws ≠ []) (hvn : vs ≠ [])
    (hw : ∀ w ∈ ws, isIdentifier w = true) (hv : ∀ v ∈ vs, isIdentifier v = true)
    (rest tail : List Char) (hr : Follows rest) (hl : Follows tail)
    (h : (Text.join "::" ws).toList ++ rest = (Text.join "::" vs).toList ++ tail) :
    ws = vs ∧ rest = tail := by
  obtain ⟨w, ws, rfl⟩ := List.exists_cons_of_ne_nil hwn
  obtain ⟨v, vs, rfl⟩ := List.exists_cons_of_ne_nil hvn
  rw [join_chars, join_chars, List.append_assoc, List.append_assoc] at h
  obtain ⟨hw, hws⟩ := List.forall_mem_cons.mp hw
  obtain ⟨hv, hvs⟩ := List.forall_mem_cons.mp hv
  obtain ⟨rfl, hnext⟩ := identifier_append_inj w v hw hv _ _ (segments_head ws rest hr)
    (segments_head vs tail hl) h
  obtain ⟨rfl, hrest⟩ := segments_append_inj ws vs hws hvs rest tail hr hl hnext
  exact ⟨rfl, hrest⟩

def writtenInteger? (v : Double) : Option ℤ :=
  (Numeral.integer? (v.render .general).toList).filter fun n => toString n == v.render .general

theorem writtenInteger?_eq_some (v : Double) (n : ℤ) :
    writtenInteger? v = some n ↔ v.render .general = toString n := by
  rw [writtenInteger?, Option.filter_eq_some_iff, beq_iff_eq]
  constructor
  · exact fun h => h.2.symm
  · intro h
    rw [h]
    exact ⟨Numeral.integer?_toString n, rfl⟩

inductive Clear : Expr → Prop
  | int {v : ℤ} (h : 0 ≤ v) : Clear (.int v)
  | float {v : Double} (h : Numeral.Unsigned v) (hi : writtenInteger? v = none) : Clear (.float v)
  | str (s : String) : Clear (.str s)
  | bool (b : Bool) : Clear (.bool b)
  | name {id : String} (h : isIdentifier id = true) (hk : id ∉ keywords) : Clear (.name id)
  | member {w : String} {ws : List String} {id : String}
      (h : ∀ v ∈ w :: ws ++ [id], isIdentifier v = true) : Clear (.member (w :: ws) id)
  | unary {op : UnaryOp} {x : Expr} (h : Clear x) : Clear (.unary op x)
  | binary {op : BinaryOp} {x y : Expr} (hx : Clear x) (hy : Clear y) : Clear (.binary op x y)
  | cond {c a b : Expr} (hc : Clear c) (ha : Clear a) (hb : Clear b) : Clear (.cond c a b)
  | attr {x : Expr} {id : String} (h : Clear x) (ht : x.takesSuffix = true)
      (hi : isIdentifier id = true) : Clear (.attr x id)
  | index {x i : Expr} (hx : Clear x) (ht : x.takesSuffix = true) (hi : Clear i) :
      Clear (.index x i)
  | list {xs : List Expr} (h : ∀ x ∈ xs, Clear x) : Clear (.list xs)

inductive Kind where
  | number
  | string
  | word
  | sign
  | group
  | list
  deriving DecidableEq

@[simp] def kind : Expr → Option Kind
  | .int _ | .float _ => some .number
  | .str _ => some .string
  | .bool _ | .name _ | .member .. => some .word
  | .unary .. => some .sign
  | .binary .. | .cond .. => some .group
  | .attr x _ | .index x _ => x.kind
  | .list _ => some .list
  | .absent => none

def kindOf (c : Char) : Option Kind :=
  if c.isDigit then some .number
  else if isNameStart c then some .word
  else if c = '"' then some .string
  else if c = '(' then some .group
  else if c = '[' then some .list
  else if c = '-' ∨ c = '~' ∨ c = '!' then some .sign
  else none

def chars (x : Expr) : List Char := x.text.toList

theorem chars_str (s : String) : (Expr.str s).chars = (Text.quoted s).toList := by
  rw [chars, text]

@[simp] theorem chars_unary (op : UnaryOp) (x : Expr) :
    (Expr.unary op x).chars = op.text.toList ++ x.chars := by
  simp [chars, text]

@[simp] theorem chars_binary (op : BinaryOp) (x y : Expr) :
    (Expr.binary op x y).chars
      = '(' :: (x.chars ++ ' ' :: (op.text.toList ++ ' ' :: (y.chars ++ [')']))) := by
  simp [chars, text]

@[simp] theorem chars_cond (c a b : Expr) :
    (Expr.cond c a b).chars
      = '(' :: (c.chars ++ ' ' :: '?' :: ' ' ::
        (a.chars ++ ' ' :: ':' :: ' ' :: (b.chars ++ [')']))) := by
  simp [chars, text]

@[simp] theorem chars_attr (x : Expr) (id : String) :
    (Expr.attr x id).chars = x.chars ++ '.' :: id.toList := by
  simp [chars, text]

@[simp] theorem chars_index (x i : Expr) :
    (Expr.index x i).chars = x.chars ++ '[' :: (i.chars ++ [']']) := by
  simp [chars, text]

@[simp] theorem chars_list (xs : List Expr) :
    (Expr.list xs).chars = '[' :: ((Text.join ", " (texts xs)).toList ++ [']']) := by
  simp [chars, text]

theorem spelling_int (v : ℤ) (h : 0 ≤ v) :
    ∃ s : Spelling, s.Valid ∧ (Expr.int v).chars = s.chars := by
  obtain ⟨n, rfl⟩ := Int.eq_ofNat_of_zero_le h
  refine ⟨⟨Nat.toDigits 10 n, [], none⟩, ⟨Nat.toDigits_ne_nil, ?_, by simp, by simp⟩, ?_⟩
  · exact fun c hc => Double.toDigits_isDigit n c hc
  · rw [chars, text, Numeral.toList_toString_ofNat]
    simp [Spelling.chars, Spelling.pointChars, Spelling.expoChars]

theorem spelling_float (v : Double) (h : Numeral.Unsigned v) :
    ∃ s : Spelling, s.Valid ∧ (Expr.float v).chars = s.chars := by
  obtain ⟨s, hs, hc, -⟩ := Double.render_chars .general (by decide) v h.1
  refine ⟨s, hs, ?_⟩
  rw [chars, text, hc, h.2]
  rfl

def Heads (k : Kind) (cs : List Char) : Prop :=
  ∃ c rest, cs = c :: rest ∧ kindOf c = some k

theorem heads_append (k : Kind) (cs more : List Char) (h : Heads k cs) : Heads k (cs ++ more) := by
  obtain ⟨c, rest, rfl, hk⟩ := h
  exact ⟨c, rest ++ more, rfl, hk⟩

theorem heads_unique (k l : Kind) (cs : List Char) (hk : Heads k cs) (hl : Heads l cs) : k = l := by
  obtain ⟨c, rest, rfl, hk⟩ := hk
  obtain ⟨d, rest', hd, hl⟩ := hl
  obtain ⟨rfl, -⟩ := List.cons.inj hd
  exact Option.some.inj (hk.symm.trans hl)

theorem heads_spelling (s : Spelling) (hs : s.Valid) : Heads .number s.chars := by
  obtain ⟨c, cs, hw⟩ := List.exists_cons_of_ne_nil hs.nonempty
  rw [Spelling.chars, hw]
  exact ⟨c, _, rfl, by rw [kindOf, if_pos (hs.whole c (by simp [hw]))]⟩

theorem heads_identifier (s : String) (hs : isIdentifier s = true) : Heads .word s.toList := by
  obtain ⟨c, cs, hc, hstart, -⟩ := identifier_chars s hs
  refine ⟨c, cs, hc, ?_⟩
  rw [kindOf, if_neg (by simp [isDigit_isNameStart c hstart]), if_pos hstart]

theorem Clear.heads {x : Expr} (h : Clear x) : ∃ k, x.kind = some k ∧ Heads k x.chars := by
  induction h with
  | int h =>
    obtain ⟨s, hs, hc⟩ := spelling_int _ h
    exact ⟨.number, rfl, hc ▸ heads_spelling s hs⟩
  | float h =>
    obtain ⟨s, hs, hc⟩ := spelling_float _ h
    exact ⟨.number, rfl, hc ▸ heads_spelling s hs⟩
  | str s =>
    exact ⟨.string, rfl, '"', _, (chars_str s).trans (Text.toList_quoted s), by decide⟩
  | bool b =>
    refine ⟨.word, rfl, ?_⟩
    have hb : isIdentifier (if b then "true" else "false") = true := by cases b <;> decide
    simpa [chars, text] using heads_identifier _ hb
  | name h => exact ⟨.word, rfl, heads_identifier _ h⟩
  | @member w ws id h =>
    refine ⟨.word, rfl, ?_⟩
    rw [chars, text, List.cons_append, join_chars]
    exact heads_append _ _ _ (heads_identifier w (h w (by simp)))
  | @unary op x =>
    refine ⟨.sign, rfl, ?_⟩
    rw [chars_unary]
    refine heads_append _ _ _ ?_
    cases op <;> exact ⟨_, _, rfl, by decide⟩
  | binary => exact ⟨.group, rfl, '(', _, chars_binary _ _ _, by decide⟩
  | cond => exact ⟨.group, rfl, '(', _, chars_cond _ _ _, by decide⟩
  | attr _ _ _ ih =>
    obtain ⟨k, hk, hh⟩ := ih
    rw [chars_attr]
    exact ⟨k, hk, heads_append _ _ _ hh⟩
  | index _ _ _ ih _ =>
    obtain ⟨k, hk, hh⟩ := ih
    rw [chars_index]
    exact ⟨k, hk, heads_append _ _ _ hh⟩
  | list => exact ⟨.list, rfl, '[', _, chars_list _, by decide⟩

theorem Clear.kind_eq {x y : Expr} (hx : Clear x) (hy : Clear y) (rest tail : List Char)
    (h : x.chars ++ rest = y.chars ++ tail) : x.kind = y.kind := by
  obtain ⟨k, hk, hxh⟩ := hx.heads
  obtain ⟨l, hl, hyh⟩ := hy.heads
  have hxh := heads_append k _ rest hxh
  rw [h] at hxh
  rw [hk, hl, heads_unique k l _ hxh (heads_append l _ tail hyh)]

/-- The text of the tree in front of what ends an expression is that of no other clear tree. -/
def Told (x : Expr) : Prop :=
  ∀ (y : Expr) (rest tail : List Char), Clear y → Ends rest → Ends tail →
    x.chars ++ rest = y.chars ++ tail → x = y ∧ rest = tail

inductive Suffix where
  | attr (id : String)
  | index (i : Expr)

namespace Suffix

def on (x : Expr) : Suffix → Expr
  | attr id => .attr x id
  | index i => .index x i

def chars : Suffix → List Char
  | attr id => '.' :: id.toList
  | index i => '[' :: (i.chars ++ [']'])

def All (p : Expr → Prop) : Suffix → Prop
  | attr id => isIdentifier id = true
  | index i => p i

end Suffix

def suffixed (x : Expr) (ss : List Suffix) : Expr :=
  ss.foldl Suffix.on x

theorem follows_suffixes (p : Expr → Prop) (ss : List Suffix) (rest : List Char)
    (hs : ∀ s ∈ ss, s.All p) (hr : Ends rest) : Follows (ss.flatMap Suffix.chars ++ rest) := by
  cases ss with
  | nil => exact .ends hr
  | cons s ss =>
    cases s with
    | index i => exact .bracket
    | attr id =>
      obtain ⟨c, cs, hc, hstart, -⟩ := identifier_chars id (hs (.attr id) (by simp))
      rw [List.flatMap_cons, Suffix.chars, hc]
      exact .point hstart

theorem suffixes_append_inj (ss ts : List Suffix) (hs : ∀ s ∈ ss, s.All Told)
    (ht : ∀ t ∈ ts, t.All Clear) (rest tail : List Char) (hr : Ends rest) (hl : Ends tail)
    (h : ss.flatMap Suffix.chars ++ rest = ts.flatMap Suffix.chars ++ tail) :
    ss = ts ∧ rest = tail := by
  have hopen : ∀ (s : Suffix) (cs : List Char), ¬ Ends (s.chars ++ cs) := by
    intro s cs he
    cases s with
    | attr id => exact absurd (he '.' (by simp [Suffix.chars])) (by decide)
    | index i => exact absurd (he '[' (by simp [Suffix.chars])) (by decide)
  induction ss generalizing ts with
  | nil =>
    cases ts with
    | nil => exact ⟨rfl, h⟩
    | cons t ts =>
      rw [List.flatMap_cons, List.append_assoc, List.flatMap_nil, List.nil_append] at h
      exact absurd (h ▸ hr) (hopen t _)
  | cons s ss ih =>
    cases ts with
    | nil =>
      rw [List.flatMap_cons, List.append_assoc, List.flatMap_nil, List.nil_append] at h
      exact absurd (h ▸ hl) (hopen s _)
    | cons t ts =>
      obtain ⟨hs, hss⟩ := List.forall_mem_cons.mp hs
      obtain ⟨ht, hts⟩ := List.forall_mem_cons.mp ht
      rw [List.flatMap_cons, List.flatMap_cons, List.append_assoc, List.append_assoc] at h
      cases s with
      | attr id =>
        cases t with
        | index j => simp [Suffix.chars] at h
        | attr jd =>
          obtain ⟨rfl, hnext⟩ := identifier_append_inj id jd hs ht _ _
            ((follows_suffixes _ ss rest hss hr).head _ (by decide))
            ((follows_suffixes _ ts tail hts hl).head _ (by decide)) (List.cons.inj h).2
          obtain ⟨rfl, hrest⟩ := ih ts hss hts hnext
          exact ⟨rfl, hrest⟩
      | index i =>
        cases t with
        | attr jd => simp [Suffix.chars] at h
        | index j =>
          simp only [Suffix.chars, List.cons_append, List.append_assoc, List.cons.injEq,
            true_and, List.nil_append] at h
          obtain ⟨rfl, hnext⟩ := hs j _ _ ht (ends_bracket _) (ends_bracket _) h
          obtain ⟨rfl, hrest⟩ := ih ts hss hts (List.cons.inj hnext).2
          exact ⟨rfl, hrest⟩

def Spreads (x : Expr) : Prop :=
  ∀ ss : List Suffix, (∀ s ∈ ss, s.All Told) → (ss = [] ∨ x.takesSuffix = true) →
    ∀ (y : Expr) (rest tail : List Char), Clear y → Ends rest → Ends tail →
      x.chars ++ (ss.flatMap Suffix.chars ++ rest) = y.chars ++ tail →
      suffixed x ss = y ∧ rest = tail

theorem Spreads.told {x : Expr} (h : Spreads x) : Told x :=
  h [] (by simp) (.inl rfl)

def isStem : Expr → Bool
  | .attr .. | .index .. => false
  | _ => true

theorem chars_suffixed (x : Expr) (ss : List Suffix) :
    (suffixed x ss).chars = x.chars ++ ss.flatMap Suffix.chars := by
  induction ss generalizing x with
  | nil => simp [suffixed]
  | cons s ss ih =>
    rw [suffixed, List.foldl_cons]
    refine (ih (s.on x)).trans ?_
    cases s <;> simp [Suffix.on, Suffix.chars]

theorem kind_suffixed (x : Expr) (ss : List Suffix) : (suffixed x ss).kind = x.kind := by
  induction ss generalizing x with
  | nil => rfl
  | cons s ss ih =>
    refine (ih (s.on x)).trans ?_
    cases s <;> rfl

structure StemOf (y z : Expr) (ts : List Suffix) : Prop where
  whole : y = suffixed z ts
  clear : Clear z
  isStem : z.isStem = true
  suffixes : ∀ t ∈ ts, t.All Clear
  takes : ts = [] ∨ z.takesSuffix = true

theorem StemOf.alone {x : Expr} (h : Clear x) (hs : x.isStem = true) : StemOf x x [] :=
  ⟨rfl, h, hs, by simp, .inl rfl⟩

theorem StemOf.snoc {x z : Expr} {ts : List Suffix} (h : StemOf x z ts) (t : Suffix)
    (hx : x.takesSuffix = true) (ht : t.All Clear) : StemOf (t.on x) z (ts ++ [t]) where
  whole := by simp [suffixed, h.whole]
  clear := h.clear
  isStem := h.isStem
  suffixes u hu := by
    rcases List.mem_append.mp hu with hu | hu
    · exact h.suffixes u hu
    · exact List.mem_singleton.mp hu ▸ ht
  takes := by
    rcases h.takes with rfl | hz
    · obtain rfl : x = z := h.whole
      exact .inr hx
    · exact .inr hz

theorem Clear.stem {y : Expr} (h : Clear y) : ∃ z ts, StemOf y z ts := by
  induction h with
  | @attr x id _ ht hi ih =>
    obtain ⟨z, ts, hz⟩ := ih
    exact ⟨z, _, hz.snoc (.attr id) ht hi⟩
  | @index x i _ ht hi ih _ =>
    obtain ⟨z, ts, hz⟩ := ih
    exact ⟨z, _, hz.snoc (.index i) ht hi⟩
  | int h => exact ⟨_, _, .alone (.int h) rfl⟩
  | float h hi => exact ⟨_, _, .alone (.float h hi) rfl⟩
  | str s => exact ⟨_, _, .alone (.str s) rfl⟩
  | bool b => exact ⟨_, _, .alone (.bool b) rfl⟩
  | name h hk => exact ⟨_, _, .alone (.name h hk) rfl⟩
  | member h => exact ⟨_, _, .alone (.member h) rfl⟩
  | unary h => exact ⟨_, _, .alone (.unary h) rfl⟩
  | binary hx hy => exact ⟨_, _, .alone (.binary hx hy) rfl⟩
  | cond hc ha hb => exact ⟨_, _, .alone (.cond hc ha hb) rfl⟩
  | list h => exact ⟨_, _, .alone (.list h) rfl⟩

/-- The text of a stem in front of what follows an operand is that of no other stem. -/
def StemTold (x : Expr) : Prop :=
  ∀ (y : Expr) (rest tail : List Char), Clear y → y.isStem = true → y.kind = x.kind →
    Follows rest → Follows tail → x.chars ++ rest = y.chars ++ tail → x = y ∧ rest = tail

theorem StemTold.spreads {x : Expr} (h : StemTold x) (hx : Clear x) : Spreads x := by
  intro ss hss _ y rest tail hy hr hl heq
  have hk := hx.kind_eq hy _ _ heq
  obtain ⟨z, ts, rfl, hz, hs, hts, -⟩ := hy.stem
  rw [kind_suffixed] at hk
  rw [chars_suffixed, List.append_assoc] at heq
  obtain ⟨rfl, hrest⟩ := h z _ _ hz hs hk.symm (follows_suffixes _ ss rest hss hr)
    (follows_suffixes _ ts tail hts hl) heq
  obtain ⟨rfl, htail⟩ := suffixes_append_inj ss ts hss hts rest tail hr hl hrest
  exact ⟨rfl, htail⟩

theorem number_inj (x y : Expr) (hx : Clear x) (hy : Clear y) (hxs : x.isStem = true)
    (hys : y.isStem = true) (hxk : x.kind = some .number) (hyk : y.kind = some .number)
    (h : x.text = y.text) : x = y := by
  cases hx with
  | @int v _ =>
    cases hy with
    | @int w _ =>
      rw [text, text] at h
      have hw := Numeral.integer?_toString w
      rw [← h, Numeral.integer?_toString] at hw
      rw [Option.some.inj hw]
    | @float w _ hi =>
      rw [text, text] at h
      rw [(writtenInteger?_eq_some w v).mpr h.symm] at hi
      cases hi
    | attr | index => cases hys
    | _ => simp at hyk
  | @float v hv hi =>
    cases hy with
    | @int w _ =>
      rw [text, text] at h
      rw [(writtenInteger?_eq_some v w).mpr h] at hi
      cases hi
    | @float w hw _ =>
      rw [text, text] at h
      have hread := Double.double_render .general (by decide) v hv.1
      rw [h, Double.double_render .general (by decide) w hw.1] at hread
      rw [Except.ok.inj hread]
    | attr | index => cases hys
    | _ => simp at hyk
  | attr | index => cases hxs
  | _ => simp at hxk

theorem Clear.spelling {x : Expr} (h : Clear x) (hs : x.isStem = true)
    (hk : x.kind = some .number) : ∃ s : Spelling, s.Valid ∧ x.chars = s.chars := by
  cases h with
  | int h => exact spelling_int _ h
  | float h => exact spelling_float _ h
  | attr | index => cases hs
  | _ => simp at hk

theorem stemTold_number (x : Expr) (hx : Clear x) (hs : x.isStem = true)
    (hk : x.kind = some .number) : StemTold x := by
  intro y rest tail hy hys hyk hr hl h
  rw [hk] at hyk
  obtain ⟨s, hsv, hxc⟩ := hx.spelling hs hk
  obtain ⟨t, htv, hyc⟩ := hy.spelling hys hyk
  rw [hxc, hyc] at h
  obtain ⟨heq, hrest⟩ := chars_append_inj s t hsv htv rest tail hr hl h
  rw [← hxc, ← hyc] at heq
  exact ⟨number_inj x y hx hy hs hys hk hyk (String.toList_inj.mp heq), hrest⟩

theorem stemTold_str (s : String) : StemTold (.str s) := by
  intro y rest tail hy hys hyk _ _ h
  cases hy with
  | str t =>
    rw [chars_str, chars_str] at h
    obtain ⟨rfl, hrest⟩ := Text.quoted_append_inj s t rest tail h
    exact ⟨rfl, hrest⟩
  | attr | index => cases hys
  | _ => simp at hyk

theorem pathWords_inj (x y : Expr) (hx : Clear x) (hy : Clear y) (hxs : x.isStem = true)
    (hys : y.isStem = true) (hxk : x.kind = some .word) (hyk : y.kind = some .word)
    (h : x.pathWords = y.pathWords) : x = y := by
  have hkey : ∀ b : Bool, (if b then "true" else "false") ∈ keywords := by decide
  cases hx with
  | bool b =>
    cases hy with
    | bool c =>
      cases b <;> cases c <;> simp_all [pathWords]
    | name _ hk =>
      obtain rfl := (List.singleton_inj.mp h)
      exact absurd (hkey b) hk
    | member => simp [pathWords] at h
    | attr | index => cases hys
    | _ => simp at hyk
  | name _ hk =>
    cases hy with
    | bool c =>
      obtain rfl := (List.singleton_inj.mp h)
      exact absurd (hkey c) hk
    | name => rw [List.singleton_inj.mp h]
    | member => simp [pathWords] at h
    | attr | index => cases hys
    | _ => simp at hyk
  | member =>
    cases hy with
    | bool | name => simp [pathWords] at h
    | member =>
      obtain ⟨hpath, hid⟩ := List.append_inj' h rfl
      rw [hpath, List.singleton_inj.mp hid]
    | attr | index => cases hys
    | _ => simp at hyk
  | attr | index => cases hxs
  | _ => simp at hxk

theorem Clear.words {x : Expr} (h : Clear x) (hs : x.isStem = true) (hk : x.kind = some .word) :
    x.pathWords ≠ [] ∧ (∀ w ∈ x.pathWords, isIdentifier w = true) ∧
      x.chars = (Text.join "::" x.pathWords).toList := by
  cases h with
  | bool b =>
    refine ⟨by simp [pathWords], ?_, by simp [pathWords, chars, text, Text.join]⟩
    cases b <;> decide
  | name h =>
    exact ⟨by simp [pathWords], by simpa [pathWords] using h,
      by simp [pathWords, chars, text, Text.join]⟩
  | member h => exact ⟨by simp [pathWords], h, by simp [pathWords, chars, text]⟩
  | attr | index => cases hs
  | _ => simp at hk

theorem stemTold_word (x : Expr) (hx : Clear x) (hs : x.isStem = true)
    (hk : x.kind = some .word) : StemTold x := by
  intro y rest tail hy hys hyk hr hl h
  rw [hk] at hyk
  obtain ⟨hxn, hxi, hxc⟩ := hx.words hs hk
  obtain ⟨hyn, hyi, hyc⟩ := hy.words hys hyk
  rw [hxc, hyc] at h
  obtain ⟨heq, hrest⟩ := join_append_inj _ _ hxn hyn hxi hyi rest tail hr hl h
  exact ⟨pathWords_inj x y hx hy hs hys hk hyk heq, hrest⟩

theorem blank_append_inj (xs ys rest tail : List Char) (hx : ' ' ∉ xs) (hy : ' ' ∉ ys)
    (h : xs ++ ' ' :: rest = ys ++ ' ' :: tail) : xs = ys ∧ rest = tail := by
  have hall : ∀ zs : List Char, ' ' ∉ zs → ∀ c ∈ zs, (c != ' ') = true := by
    intro zs hz c hc
    rw [bne_iff_ne]
    rintro rfl
    exact hz hc
  obtain ⟨rfl, hrest⟩ := run_append_inj (· != ' ') xs ys _ _ (hall xs hx) (hall ys hy)
    (by simp) (by simp) h
  exact ⟨rfl, (List.cons.inj hrest).2⟩

theorem binaryText_inj (a b : BinaryOp) (h : a.text.toList = b.text.toList) : a = b := by
  cases a <;> cases b <;> first | rfl | exact absurd h (by decide)

theorem binaryText_chars (op : BinaryOp) : ' ' ∉ op.text.toList ∧ op.text.toList ≠ ['?'] := by
  cases op <;> decide

theorem stemTold_binary (op : BinaryOp) (x y : Expr) (hx : Told x) (hy : Told y) :
    StemTold (.binary op x y) := by
  intro z rest tail hz hzs hzk _ _ h
  cases hz with
  | @binary op' x' y' hx' hy' =>
    simp only [chars_binary, List.cons_append, List.append_assoc, List.cons.injEq, true_and,
      List.nil_append] at h
    obtain ⟨rfl, hop⟩ := hx x' _ _ hx' (ends_blank _) (ends_blank _) h
    obtain ⟨heq, hright⟩ := blank_append_inj _ _ _ _ (binaryText_chars op).1 (binaryText_chars op').1
      (List.cons.inj hop).2
    obtain ⟨rfl, hclose⟩ := hy y' _ _ hy' (ends_paren _)
      (ends_paren _) hright
    rw [binaryText_inj op op' heq]
    exact ⟨rfl, (List.cons.inj hclose).2⟩
  | @cond c a b hc ha hb =>
    simp only [chars_binary, chars_cond, List.cons_append, List.append_assoc, List.cons.injEq,
      true_and, List.nil_append] at h
    obtain ⟨-, hop⟩ := hx c _ _ hc (ends_blank _) (ends_blank _) h
    obtain ⟨heq, -⟩ := blank_append_inj _ ['?'] _ _ (binaryText_chars op).1 (by decide)
      (List.cons.inj hop).2
    exact absurd heq (binaryText_chars op).2
  | attr | index => cases hzs
  | _ => simp at hzk

theorem stemTold_cond (c a b : Expr) (hc : Told c) (ha : Told a) (hb : Told b) :
    StemTold (.cond c a b) := by
  intro z rest tail hz hzs hzk _ _ h
  cases hz with
  | @binary op x y hx hy =>
    simp only [chars_binary, chars_cond, List.cons_append, List.append_assoc, List.cons.injEq,
      true_and, List.nil_append] at h
    obtain ⟨-, hop⟩ := hc x _ _ hx (ends_blank _) (ends_blank _) h
    obtain ⟨heq, -⟩ := blank_append_inj ['?'] _ _ _ (by decide) (binaryText_chars op).1
      (List.cons.inj hop).2
    exact absurd heq.symm (binaryText_chars op).2
  | @cond c' a' b' hc' ha' hb' =>
    simp only [chars_cond, List.cons_append, List.append_assoc, List.cons.injEq, true_and,
      List.nil_append] at h
    obtain ⟨rfl, hthen⟩ := hc c' _ _ hc' (ends_blank _)
      (ends_blank _) h
    simp only [List.cons.injEq, true_and] at hthen
    obtain ⟨rfl, helse⟩ := ha a' _ _ ha' (ends_blank _)
      (ends_blank _) hthen
    simp only [List.cons.injEq, true_and] at helse
    obtain ⟨rfl, hclose⟩ := hb b' _ _ hb' (ends_paren _)
      (ends_paren _) helse
    exact ⟨rfl, (List.cons.inj hclose).2⟩
  | attr | index => cases hzs
  | _ => simp at hzk

theorem join_texts (x : Expr) (xs : List Expr) :
    (Text.join ", " (texts (x :: xs))).toList
      = x.chars ++ xs.flatMap fun y => ',' :: ' ' :: y.chars := by
  induction xs generalizing x with
  | nil => simp [texts, Text.join, chars]
  | cons y ys ih =>
    have hy := ih y
    rw [texts] at hy ⊢
    simp [texts, Text.join, String.toList_append, chars] at hy ⊢
    exact hy

theorem elements_append_inj (xs ys : List Expr) (hx : ∀ x ∈ xs, Told x) (hy : ∀ y ∈ ys, Clear y)
    (rest tail : List Char)
    (h : xs.flatMap (fun x => ',' :: ' ' :: x.chars) ++ ']' :: rest
      = ys.flatMap (fun y => ',' :: ' ' :: y.chars) ++ ']' :: tail) : xs = ys ∧ rest = tail := by
  have hends : ∀ (zs : List Expr) (more : List Char),
      Ends (zs.flatMap (fun z => ',' :: ' ' :: z.chars) ++ ']' :: more) := by
    intro zs more
    cases zs with
    | nil => exact ends_bracket _
    | cons z zs => exact ends_comma _
  induction xs generalizing ys with
  | nil =>
    cases ys with
    | nil => exact ⟨rfl, (List.cons.inj h).2⟩
    | cons y ys => simp at h
  | cons x xs ih =>
    cases ys with
    | nil => simp at h
    | cons y ys =>
      simp only [List.flatMap_cons, List.cons_append, List.append_assoc, List.cons.injEq,
        true_and] at h
      obtain ⟨hx, hxs⟩ := List.forall_mem_cons.mp hx
      obtain ⟨hy, hys⟩ := List.forall_mem_cons.mp hy
      obtain ⟨rfl, hnext⟩ := hx y _ _ hy (hends xs rest) (hends ys tail) h
      obtain ⟨rfl, hrest⟩ := ih ys hxs hys hnext
      exact ⟨rfl, hrest⟩

theorem Clear.not_bracket {x : Expr} (h : Clear x) (cs rest : List Char) :
    x.chars ++ cs ≠ ']' :: rest := by
  intro heq
  obtain ⟨k, -, hh⟩ := h.heads
  obtain ⟨c, more, hc, hk⟩ := heads_append k _ cs hh
  obtain ⟨rfl, -⟩ := List.cons.inj (heq.symm.trans hc)
  exact absurd hk (by rw [show kindOf ']' = none by decide]; simp)

theorem stemTold_list (xs : List Expr) (hc : ∀ x ∈ xs, Clear x) (hx : ∀ x ∈ xs, Told x) :
    StemTold (.list xs) := by
  intro z rest tail hz hzs hzk _ _ h
  cases hz with
  | @list ys hy =>
    simp only [chars_list, List.cons_append, List.append_assoc, List.cons.injEq, true_and,
      List.nil_append] at h
    cases xs with
    | nil =>
      cases ys with
      | nil => simpa [texts, Text.join] using h
      | cons y ys =>
        rw [join_texts, List.append_assoc] at h
        exact absurd h.symm ((hy y (by simp)).not_bracket _ _)
    | cons x xs =>
      cases ys with
      | nil =>
        rw [join_texts, List.append_assoc] at h
        exact absurd h ((hc x (by simp)).not_bracket _ _)
      | cons y ys =>
        -- with a comma before the first element as well, all elements are alike
        have hall := elements_append_inj (x :: xs) (y :: ys) hx hy rest tail (by
          rw [join_texts, join_texts, List.append_assoc, List.append_assoc] at h
          simp only [List.flatMap_cons, List.cons_append, List.append_assoc, h])
        exact ⟨by rw [hall.1], hall.2⟩
  | attr | index => cases hzs
  | _ => simp at hzk

theorem unaryText_inj (a b : UnaryOp) (cs ds : List Char)
    (h : a.text.toList ++ cs = b.text.toList ++ ds) : a = b ∧ cs = ds := by
  cases a <;> cases b <;> simp_all [UnaryOp.text]

theorem spreads_unary (op : UnaryOp) (x : Expr) (hc : Clear x) (hx : Told x) :
    Spreads (.unary op x) := by
  intro ss _ hn y rest tail hy hr hl h
  obtain rfl : ss = [] := by simpa [takesSuffix] using hn
  have hk := (Clear.unary hc).kind_eq hy _ _ h
  obtain ⟨z, ts, rfl, hz, hs, -, hzt⟩ := hy.stem
  rw [kind_suffixed] at hk
  cases hz with
  | @unary op' x' hx' =>
    obtain rfl : ts = [] := by simpa [takesSuffix] using hzt
    simp only [suffixed, List.foldl_nil, chars_unary, List.append_assoc, List.flatMap_nil,
      List.nil_append] at h
    obtain ⟨rfl, hnext⟩ := unaryText_inj op op' _ _ h
    obtain ⟨rfl, hrest⟩ := hx x' rest tail hx' hr hl hnext
    exact ⟨rfl, hrest⟩
  | attr | index => cases hs
  | _ => simp at hk

theorem Clear.spreads {x : Expr} (h : Clear x) : Spreads x := by
  induction h with
  | int h => exact (stemTold_number _ (.int h) rfl rfl).spreads (.int h)
  | float h hi => exact (stemTold_number _ (.float h hi) rfl rfl).spreads (.float h hi)
  | str s => exact (stemTold_str s).spreads (.str s)
  | bool b => exact (stemTold_word _ (.bool b) rfl rfl).spreads (.bool b)
  | name h hk => exact (stemTold_word _ (.name h hk) rfl rfl).spreads (.name h hk)
  | member h => exact (stemTold_word _ (.member h) rfl rfl).spreads (.member h)
  | unary h ih => exact spreads_unary _ _ h ih.told
  | binary hx hy ihx ihy =>
    exact (stemTold_binary _ _ _ ihx.told ihy.told).spreads (.binary hx hy)
  | cond hc ha hb ihc iha ihb =>
    exact (stemTold_cond _ _ _ ihc.told iha.told ihb.told).spreads (.cond hc ha hb)
  | list h ih => exact (stemTold_list _ h fun x hx => (ih x hx).told).spreads (.list h)
  | @attr x id _ ht hi ih =>
    intro ss hss _ y rest tail hy hr hl h
    refine ih (.attr id :: ss) (List.forall_mem_cons.mpr ⟨hi, hss⟩) (.inr ht) y rest tail hy hr hl ?_
    simpa [Suffix.chars] using h
  | @index x i _ ht _ ih ihi =>
    intro ss hss _ y rest tail hy hr hl h
    refine ih (.index i :: ss) (List.forall_mem_cons.mpr ⟨ihi.told, hss⟩) (.inr ht) y rest tail hy
      hr hl ?_
    simpa [Suffix.chars] using h

theorem Clear.text_inj {x y : Expr} (hx : Clear x) (hy : Clear y) (h : x.text = y.text) :
    x = y := by
  exact (hx.spreads.told y [] [] hy ends_nil ends_nil (by rw [chars, chars, h])).1

end Expr
end FormatFuzz
